/-
Triangles from three measures.

Each construction puts two points on the x axis and lists every place for the
third.  Angles are signed, counter-clockwise positive, as in `Vec.angleAt`.

Main definitions:
* `threeSides`, `sidesAndAngle`, `angleAndSides`, `angles`: the constructions
  from three distances, from two sides and the included angle, from an angle,
  an adjacent and the opposite side, and from two angles and the side between.
-/
import PlanarSketch.Configuration
import PlanarSketch.Plane.Intersection

namespace PlanarSketch.Construction

/-- The point on the x axis at `t`. -/
def onAxis (t : Float) : Vec := ⟨t, 0.0⟩

/-- The unit direction at `angle` from the positive x axis. -/
def ray (angle : Float) : Vec := (onAxis 1.0).rotate angle

/-- Triangles with sides `|ab|`, `|bc|` and `|ca|`: two mirror images in general, one when the sides
just fit.  If `a` and `b` coincide, `c` may lie in any direction and one is chosen. -/
def threeSides (a b c : PointName) (ab bc ca : Float) : List Configuration :=
  if Tolerance.standard.nearZero ab then
    if Tolerance.standard.near ca bc then
      [(Configuration.ofList [(a, .zero), (b, onAxis ab), (c, onAxis ca)]).asUnderconstrained]
    else []
  else
    (Circle.meetCircle ⟨.zero, ca⟩ ⟨onAxis ab, bc⟩).map fun p =>
      .ofList [(a, .zero), (b, onAxis ab), (c, p)]

/-- The triangle with sides `|ab|` and `|bc|` and the angle at `b` from `a` to `c`. -/
def sidesAndAngle (a b c : PointName) (ab angle bc : Float) : List Configuration :=
  [.ofList [(a, onAxis ab), (b, .zero), (c, (onAxis bc).rotate angle)]]

/-- Triangles with the angle at `a` from `b` to `c` and the sides `|ab|` and `|bc|`. -/
def angleAndSides (a b c : PointName) (angle ab bc : Float) : List Configuration :=
  (Circle.meetRay ⟨onAxis ab, bc⟩ ⟨.zero, ray angle⟩).map fun p =>
    .ofList [(a, .zero), (b, onAxis ab), (c, p)]

/-- The triangle with the angle at `a` from `b` to `c`, the side `|ab|` and the angle at `b` from
`a` to `c`.  If both angles vanish, `c` may lie anywhere on the side and its middle is chosen. -/
def angles (a b c : PointName) (atA ab atB : Float) : List Configuration :=
  -- Two vanishing angles put both rays on the side itself.
  if Tolerance.standard.nearZero atA && Tolerance.standard.nearZero atB then
    let middle := (Vec.zero + onAxis ab) / (2.0 : Float)
    [(Configuration.ofList [(a, .zero), (b, onAxis ab), (c, middle)]).asUnderconstrained]
  else
    (Line.meetRays ⟨.zero, ray atA⟩ ⟨onAxis ab, (onAxis (-1.0)).rotate atB⟩).map fun p =>
      .ofList [(a, .zero), (b, onAxis ab), (c, p)]

end PlanarSketch.Construction
