/-
The exact value of a floating-point number.

Every finite number is `± significand · 2 ^ exponent` with a significand below
`2 ^ 53`.  Reading that form off the bits turns questions about digits and
remainders into arithmetic of natural numbers.

Main definitions:
* `Reading`: a number as a sign and an exact magnitude, an infinity, or no
  number;
* `Magnitude.ratio`: the magnitude as a quotient of natural numbers;
* `divNearestEven`: a quotient rounded to the nearest whole, ties to even.
-/
namespace PlanarSketch

/-- The `n`th power of two. -/
def twoTo (n : Nat) : Nat := Nat.pow 2 n

/-- The `n`th power of ten. -/
def tenTo (n : Nat) : Nat := Nat.pow 10 n

/-- The exact magnitude `significand · 2 ^ exponent` of a finite number. -/
structure Magnitude where
  significand : Nat
  exponent : Int
deriving DecidableEq

/-- What the bits of a floating-point number stand for. -/
inductive Reading where
  | finite (negative : Bool) (magnitude : Magnitude)
  | infinite (negative : Bool)
  | notANumber
deriving DecidableEq

namespace Reading

/-- The fraction field of the bits. -/
def fraction (bits : UInt64) : Nat := bits.toNat % twoTo 52

/-- The exponent field of the bits. -/
def biased (bits : UInt64) : Nat := bits.toNat / twoTo 52 % twoTo 11

/-- Reads a number from its bits. -/
def ofBits (bits : UInt64) : Reading :=
  let negative := decide (twoTo 63 ≤ bits.toNat)
  let fraction := fraction bits
  let biased := biased bits
  if biased = 2047 then
    if fraction = 0 then .infinite negative else .notANumber
  else if biased = 0 then
    -- Subnormal numbers have no hidden bit.
    .finite negative ⟨fraction, -1074⟩
  else
    .finite negative ⟨twoTo 52 + fraction, (biased : Int) - 1075⟩

/-- The exact reading of a number. -/
def ofFloat (x : Float) : Reading := ofBits x.toBits

end Reading

namespace Magnitude

/-- A magnitude as a quotient `numerator / denominator`. -/
def ratio (m : Magnitude) : Nat × Nat :=
  (m.significand * twoTo m.exponent.toNat, twoTo (-m.exponent).toNat)

end Magnitude

/-- The quotient rounded to the nearest whole; a half goes to the even neighbour. -/
def divNearestEven (numerator denominator : Nat) : Nat :=
  let quotient := numerator / denominator
  let rest := numerator % denominator
  if 2 * rest < denominator then quotient
  else if denominator < 2 * rest then quotient + 1
  else if quotient % 2 = 0 then quotient
  else quotient + 1

/-- Scales a quotient by a power of ten. -/
def scaleByTen (ratio : Nat × Nat) (power : Int) : Nat × Nat :=
  (ratio.1 * tenTo power.toNat, ratio.2 * tenTo (-power).toNat)

/-- The decade of a positive quotient: the greatest `e` with `10 ^ e` at most the quotient.
The binary length of the quotient leaves three decades to choose from. -/
def decade (ratio : Nat × Nat) : Int :=
  let length : Int := (Nat.log2 ratio.1 : Int) - (Nat.log2 ratio.2 : Int)
  let least := (length * 30103) / 100000 - 1
  let reaches (e : Int) : Bool :=
    let scaled := scaleByTen ratio (-e)
    decide (scaled.2 ≤ scaled.1)
  if reaches (least + 2) then least + 2
  else if reaches (least + 1) then least + 1
  else least

end PlanarSketch
