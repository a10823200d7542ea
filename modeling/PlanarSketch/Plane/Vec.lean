/-
Points and directions of the plane.

Main definitions:
* `Vec` with its arithmetic;
* `Vec.angleAt`: the signed angle at the middle one of three points;
* `isClockwise`, `isCounterclockwise`, `isAcute`, `isObtuse`: the decisions
  about three points that selections are made of.
-/
import PlanarSketch.Number.Remainder
import PlanarSketch.Plane.Tolerance

namespace PlanarSketch

/-- A point or a direction. -/
structure Vec where
  x : Float
  y : Float
deriving Inhabited

namespace Vec

/-- The origin. -/
def zero : Vec := ⟨0.0, 0.0⟩

instance : Add Vec := ⟨fun a b => ⟨a.x + b.x, a.y + b.y⟩⟩

instance : Sub Vec := ⟨fun a b => ⟨a.x - b.x, a.y - b.y⟩⟩

instance : HMul Vec Float Vec := ⟨fun v s => ⟨v.x * s, v.y * s⟩⟩

instance : HDiv Vec Float Vec := ⟨fun v s => ⟨v.x / s, v.y / s⟩⟩

/-- The scalar product. -/
def dot (a b : Vec) : Float := a.x * b.x + a.y * b.y

/-- The length. -/
def norm (v : Vec) : Float := (v.x * v.x + v.y * v.y).sqrt

/-- A quarter turn counter-clockwise. -/
def perp (v : Vec) : Vec := ⟨-v.y, v.x⟩

/-- Twice the signed area spanned by two directions. -/
def cross (a b : Vec) : Float := a.x * b.y - a.y * b.x

/-- A turn by `angle` radians counter-clockwise about the origin. -/
def rotate (v : Vec) (angle : Float) : Vec :=
  let s := angle.sin
  let c := angle.cos
  ⟨c * v.x - s * v.y, s * v.x + c * v.y⟩

/-- The distance of two points. -/
def distance (a b : Vec) : Float := (b - a).norm

/-- Equal in both components, up to the tolerance. -/
def near (t : Tolerance) (a b : Vec) : Bool := t.near a.x b.x && t.near a.y b.y

/-- The signed angle at `p₂` that turns the ray to `p₁` onto the ray to `p₃`.  Counter-clockwise is
positive, the result lies in `(-π, π]`, and it is zero if a ray has no direction. -/
def angleAt (p₁ p₂ p₃ : Vec) : Float :=
  let a := p₁ - p₂
  let b := p₃ - p₂
  if Tolerance.standard.nearZero a.norm || Tolerance.standard.nearZero b.norm then 0.0
  else
    let angle := Float.atan2 (a.cross b) (a.dot b)
    if angle ≤ -pi then angle + 2.0 * pi else angle

/-- Twice the signed area of a triangle, positive when it runs counter-clockwise. -/
def doubleArea (p₁ p₂ p₃ : Vec) : Float := (p₂ - p₁).cross (p₃ - p₁)

/-- The triangle runs clockwise. -/
def isClockwise (p₁ p₂ p₃ : Vec) : Bool := Tolerance.standard.below (doubleArea p₁ p₂ p₃) 0.0

/-- The triangle runs counter-clockwise. -/
def isCounterclockwise (p₁ p₂ p₃ : Vec) : Bool := Tolerance.standard.above (doubleArea p₁ p₂ p₃) 0.0

/-- The three points lie on a line. -/
def isColinear (p₁ p₂ p₃ : Vec) : Bool :=
  !isClockwise p₁ p₂ p₃ && !isCounterclockwise p₁ p₂ p₃

/-- A quarter of a turn, in radians. -/
def quarterTurn : Float := 1.5707963267948966

/-- The angle at the middle point is smaller than a right one. -/
def isAcute (p₁ p₂ p₃ : Vec) : Bool := Tolerance.standard.below (angleAt p₁ p₂ p₃).abs quarterTurn

/-- The angle at the middle point is greater than a right one. -/
def isObtuse (p₁ p₂ p₃ : Vec) : Bool := Tolerance.standard.above (angleAt p₁ p₂ p₃).abs quarterTurn

end Vec

end PlanarSketch
