/-
Texts of numbers.

`shortest` writes a number positionally with the fewest digits that still tell
it apart from its neighbours.  `compact` writes ten significant digits at most
and so hides the noise of the last bits.

Main definitions:
* `Interval`: the numbers that a reader would take for the given one;
* `shortestDigits`: the first decimal grid on which that interval has a point;
* `shortest`, `compact`: the two texts.
-/
import PlanarSketch.Number.Dyadic

namespace PlanarSketch

/-! ### Digits on a grid -/

/-- A decimal `digits · 10 ^ power`. -/
structure Decimal where
  digits : Nat
  power : Int
deriving DecidableEq

/-- The digits of a natural number as text. -/
def digitText (n : Nat) : String := String.ofList (Nat.toDigits 10 n)

/-- A list of digits without the zeros at its end. -/
def dropTrailingZeros (digits : List Char) : List Char :=
  (digits.reverse.dropWhile (· = '0')).reverse

/-- A whole part and a fractional part as text; an empty fraction shows no point. -/
def positional (whole fraction : List Char) : String :=
  match fraction with
  | [] => String.ofList whole
  | _ => String.ofList (whole ++ '.' :: fraction)

/-- A decimal in positional notation, without an exponent and without superfluous zeros. -/
def Decimal.text (d : Decimal) : String :=
  let digits := Nat.toDigits 10 d.digits
  if 0 ≤ d.power then
    String.ofList (digits ++ List.replicate d.power.toNat '0')
  else
    let places := (-d.power).toNat
    let padded := List.replicate (places + 1 - digits.length) '0' ++ digits
    let (whole, fraction) := padded.splitAt (padded.length - places)
    positional whole (dropTrailingZeros fraction)

/-! ### The fewest digits -/

/-- The interval of values that round to one floating-point number, in units of a quarter of its
last place: the ends are `low · 2 ^ unit` and `high · 2 ^ unit`. -/
structure Interval where
  low : Nat
  value : Nat
  high : Nat
  unit : Int
  /-- Whether the ends belong to the interval. -/
  closed : Bool

/-- Halfway to both neighbours.  Below a power of two the neighbours stand closer; a reader rounds a
half to the even significand. -/
def Interval.ofMagnitude (m : Magnitude) : Interval where
  low := if m.significand = twoTo 52 ∧ -1074 < m.exponent then 4 * m.significand - 1
    else 4 * m.significand - 2
  value := 4 * m.significand
  high := 4 * m.significand + 2
  unit := m.exponent - 2
  closed := m.significand % 2 = 0

/-- Whether `n · 10 ^ power` lies in the interval. -/
def Interval.admits (i : Interval) (n : Nat) (power : Int) : Bool :=
  let point := n * tenTo power.toNat * twoTo (-i.unit).toNat
  let scale := tenTo (-power).toNat * twoTo i.unit.toNat
  if i.closed then decide (i.low * scale ≤ point ∧ point ≤ i.high * scale)
  else decide (i.low * scale < point ∧ point < i.high * scale)

/-- The value in units of `10 ^ power`, as a quotient. -/
def Interval.ratioOn (i : Interval) (power : Int) : Nat × Nat :=
  (i.value * twoTo i.unit.toNat * tenTo (-power).toNat, twoTo (-i.unit).toNat * tenTo power.toNat)

/-- The nearest of the value's two neighbours on the grid of `10 ^ power` that lie in the interval;
of two equally near ones the greater. -/
def Interval.onGrid? (i : Interval) (power : Int) : Option Decimal :=
  let (numerator, denominator) := i.ratioOn power
  let below := numerator / denominator
  let belowFits := i.admits below power
  let aboveFits := i.admits (below + 1) power
  -- The upper neighbour is at least as near when the rest is half a unit or more.
  if aboveFits && (!belowFits || decide (denominator ≤ 2 * (numerator % denominator))) then
    some ⟨below + 1, power⟩
  else if belowFits then some ⟨below, power⟩
  else none

/-- Tries ever finer grids and in the end cuts the value off. -/
def Interval.firstGrid (i : Interval) : Nat → Int → Decimal
  | 0, power => ⟨(i.ratioOn power).1 / (i.ratioOn power).2, power⟩
  | steps + 1, power =>
    match i.onGrid? power with
    | some d => d
    | none => firstGrid i steps (power - 1)

/-- The decimal with the fewest digits that reads back as the number; among those the nearest.
Seventeen digits always suffice. -/
def Magnitude.shortestDigits (m : Magnitude) : Decimal :=
  (Interval.ofMagnitude m).firstGrid 18 (decade m.ratio)

/-- The text of a number with the fewest digits that read back, never with an exponent. -/
def shortest (x : Float) : String :=
  match Reading.ofFloat x with
  | .notANumber => "NaN"
  | .infinite negative => if negative then "-inf" else "inf"
  | .finite negative m =>
    let body := if m.significand = 0 then "0" else m.shortestDigits.text
    if negative then "-" ++ body else body

/-! ### Ten significant digits -/

/-- The ten-digit rounding of a magnitude: ten digits and the decade of the leading one. -/
def Magnitude.tenDigits (m : Magnitude) : Nat × Int :=
  if m.significand = 0 then (0, 0)
  else
    let e := decade m.ratio
    let scaled := scaleByTen m.ratio (9 - e)
    let n := divNearestEven scaled.1 scaled.2
    -- Rounding up may carry into the next decade.
    if n = tenTo 10 then (tenTo 9, e + 1) else (n, e)

/-- The text of a magnitude: from a thousand on ten digits and an exponent, below that nine decimal
places. -/
def Magnitude.compact (m : Magnitude) : String :=
  let (n, e) := m.tenDigits
  if 3 ≤ e then
    match Nat.toDigits 10 n with
    | [] => "0"
    | lead :: rest => positional [lead] (dropTrailingZeros rest) ++ "e" ++ digitText e.toNat
  else
    (Decimal.mk (divNearestEven (m.ratio.1 * tenTo 9) m.ratio.2) (-9)).text

/-- The compact text of a number.  A magnitude that is written as zero has no sign. -/
def compact (x : Float) : String :=
  match Reading.ofFloat x with
  | .notANumber => "nan"
  | .infinite negative => if negative then "-inf" else "inf"
  | .finite negative m =>
    let body := m.compact
    if negative && body ≠ "0" then "-" ++ body else body

end PlanarSketch
