/-
Intersections of circles, lines and rays.

Every function lists the common points.  Figures that touch up to the
tolerance have one common point; circles with one centre and lines with one
direction have none, also when they coincide.

Main definitions:
* `Circle.meetCircle`, `Circle.meetLine`, `Circle.meetRay`;
* `Line.meetLine`, `Line.meetRays`.
-/
import PlanarSketch.Plane.Vec

namespace PlanarSketch

/-- A circle. -/
structure Circle where
  centre : Vec
  radius : Float

/-- A point and a direction: a line, or the ray that starts at the point. -/
structure Line where
  origin : Vec
  direction : Vec

namespace Line

/-- The line through two points. -/
def through (p q : Vec) : Line := ⟨p, q - p⟩

/-- The point at a parameter. -/
def pointAt (l : Line) (t : Float) : Vec := l.origin + l.direction * t

/-- The parameter, or zero if it is smaller or not a number. -/
def clamp (t : Float) : Float := if t > 0.0 then t else 0.0

/-- Whether the parameter lies on the ray, up to the tolerance in lengths. -/
def reaches (l : Line) (t : Float) : Bool :=
  Tolerance.standard.atLeast (t * l.direction.norm) 0.0

/-- The parameters of the common point on both lines; none for lines of one direction. -/
def parameters? (l m : Line) : Option (Float × Float) :=
  let area := l.direction.cross m.direction
  let scale := l.direction.norm * m.direction.norm
  if Tolerance.standard.nearZero scale || Tolerance.standard.nearZero (area / scale) then none
  else
    let w := m.origin - l.origin
    some (w.cross m.direction / area, w.cross l.direction / area)

/-- The common point of two lines. -/
def meetLine (l m : Line) : List Vec :=
  match l.parameters? m with
  | some (s, _) => [l.pointAt s]
  | none => []

/-- The common point of two rays. -/
def meetRays (l m : Line) : List Vec :=
  match l.parameters? m with
  | some (s, t) => if l.reaches s && m.reaches t then [l.pointAt (clamp s)] else []
  | none => []

end Line

namespace Circle

/-- The point lies on the circle. -/
def passes (c : Circle) (p : Vec) : Bool :=
  Tolerance.standard.near (p - c.centre).norm c.radius

/-- The common points of two circles; of two the first lies to the left of the way from the first
centre to the second. -/
def meetCircle (c₁ c₂ : Circle) : List Vec :=
  let way := c₂.centre - c₁.centre
  let d := way.norm
  let r₁ := c₁.radius
  let r₂ := c₂.radius
  if Tolerance.standard.nearZero d then []
  else if Tolerance.standard.above d (r₁ + r₂) || Tolerance.standard.below d (r₁ - r₂).abs then []
  else
    -- The chord stands across the way between the centres, at `a` from the first one.
    let u := way / d
    let a := (r₁ * r₁ - r₂ * r₂ + d * d) / (2.0 * d)
    let h2 := r₁ * r₁ - a * a
    let base := c₁.centre + u * a
    if h2 ≤ 0.0 || Tolerance.standard.nearZero h2.sqrt then [base]
    else
      let h := h2.sqrt
      [base + u.perp * h, base - u.perp * h]

/-- The parameters at which a line meets the circle, in increasing order.  Whether the line touches
is decided on half the chord, so that the tolerance is a length. -/
def parameters (circle : Circle) (l : Line) : List Float :=
  let a := l.direction.dot l.direction
  if Tolerance.standard.nearZero a then []
  else
    let oc := l.origin - circle.centre
    let b := 2.0 * l.direction.dot oc
    let c := oc.dot oc - circle.radius * circle.radius
    let disc := b * b - 4.0 * a * c
    -- A chord that is shorter than the tolerance, or just fails to exist, is a touch.
    let halfChordSq := disc / (4.0 * a)
    if halfChordSq < 0.0 && !Tolerance.standard.nearZero (-halfChordSq).sqrt then []
    else if halfChordSq ≤ 0.0 || Tolerance.standard.nearZero halfChordSq.sqrt then [-b / (2.0 * a)]
    else
      let root := disc.sqrt
      [(-b - root) / (2.0 * a), (-b + root) / (2.0 * a)]

/-- The common points of a circle and a line. -/
def meetLine (c : Circle) (l : Line) : List Vec := (c.parameters l).map l.pointAt

/-- The common points of a circle and a ray, the nearest to its origin first. -/
def meetRay (c : Circle) (l : Line) : List Vec :=
  ((c.parameters l).filter l.reaches).map fun t => l.pointAt (Line.clamp t)

end Circle

end PlanarSketch
