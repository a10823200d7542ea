/-
Exact remainders of floating-point numbers.

The remainder of two numbers is itself a floating-point number, so it can be
computed without rounding: both magnitudes are brought to the finer of the two
exponents and divided as natural numbers.

Main definitions:
* `Magnitude.remainder`: the exact remainder of two magnitudes;
* `nonnegativeRemainder`: the remainder in `[0, |y|)`;
* `principalAngle`: the angle in `(-π, π]` with the same direction.
-/
import PlanarSketch.Number.Dyadic

namespace PlanarSketch

/-- The exact remainder of dividing `a` by `b`. -/
def Magnitude.remainder (a b : Magnitude) : Magnitude :=
  let exponent := min a.exponent b.exponent
  let dividend := a.significand * twoTo (a.exponent - exponent).toNat
  let divisor := b.significand * twoTo (b.exponent - exponent).toNat
  ⟨dividend % divisor, exponent⟩

/-- The floating-point number with a given magnitude; exact for significands below `2 ^ 53`. -/
def Magnitude.toFloat (m : Magnitude) : Float := (Float.ofNat m.significand).scaleB m.exponent

/-- The remainder of `x` by `y` with the sign of `x`; there is none for an infinite `x`, a zero
`y` or an operand that is not a number. -/
def signedRemainder (x y : Float) : Float :=
  match Reading.ofFloat x, Reading.ofFloat y with
  | .finite negative a, .finite _ b =>
    if b.significand = 0 then 0.0 / 0.0
    else
      let r := (a.remainder b).toFloat
      if negative then -r else r
  | .finite _ _, .infinite _ => x
  | _, _ => 0.0 / 0.0

/-- The remainder of `x` by `y` that is not negative. -/
def nonnegativeRemainder (x y : Float) : Float :=
  let r := signedRemainder x y
  if r < 0.0 then r + y.abs else r

/-- Half a turn, in radians. -/
def pi : Float := 3.141592653589793

/-- The angle in `(-π, π]` that differs from `angle` by whole turns. -/
def principalAngle (angle : Float) : Float :=
  let wrapped := nonnegativeRemainder angle (2.0 * pi)
  if wrapped > pi then wrapped - 2.0 * pi else wrapped

end PlanarSketch
