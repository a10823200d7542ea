/-
Constraints between named points.

Main definitions:
* `Constraint` with its points, its key and its number;
* `Constraint.satisfied?`: whether positions fulfil a constraint;
* `Constraint.text`: how a constraint is written.
-/
import PlanarSketch.Cluster.Relation
import PlanarSketch.Number.Digits
import PlanarSketch.Selection.Basic

namespace PlanarSketch

/-- A constraint between named points. -/
inductive Constraint where
  /-- The distance from `a` to `b`. -/
  | distance (a b : PointName) (value : Float)
  /-- The angle at `b` that turns clockwise from `a` to `c`, in radians. -/
  | angle (a b c : PointName) (value : Float)
  /-- The position of a point. -/
  | fix (point : PointName) (position : Vec)
  /-- A question that every solution has to answer with yes. -/
  | selection (s : SelectionConstraint)

/-- The number that a constraint carries. -/
inductive Parameter where
  | distance (value : Float)
  | angle (value : Float)
  | position (value : Vec)

/-- What makes two constraints say the same thing, up to their numbers. -/
inductive ConstraintKey where
  | distance (d : Distance)
  | angle (a : Angle)
  | fix (point : PointName)
  | selection (s : SelectionConstraint)
deriving DecidableEq

namespace Constraint

/-- The points of a constraint, in the order in which it names them. -/
def names : Constraint → List PointName
  | .distance a b _ => [a, b]
  | .angle a b c _ => [a, b, c]
  | .fix v _ => [v]
  | .selection s => s.names

/-- The key of a constraint: the order of the points of a distance and of the outer points of an
angle does not matter. -/
def key : Constraint → ConstraintKey
  | .distance a b _ => .distance (.between a b)
  | .angle a b c _ => .angle (.between a b c)
  | .fix v _ => .fix v
  | .selection s => .selection s

/-- The number of a constraint, if it has one. -/
def parameter? : Constraint → Option Parameter
  | .distance _ _ x => some (.distance x)
  | .angle _ _ _ x => some (.angle x)
  | .fix _ p => some (.position p)
  | .selection _ => none

/-- The constraint with another number, if that is of the right kind. -/
def withParameter? : Constraint → Parameter → Option Constraint
  | .distance a b _, .distance x => some (.distance a b x)
  | .angle a b c _, .angle x => some (.angle a b c x)
  | .fix v _, .position p => some (.fix v p)
  | _, _ => none

/-- Whether positions fulfil a constraint, if all its points have one. -/
def satisfied? (positions : Configuration) : Constraint → Option Bool
  | .distance a b x => do
    let d ← positions.distance? a b
    return Tolerance.standard.near d x
  | .angle a b c x => do
    let p ← positions.position? a
    let q ← positions.position? b
    let r ← positions.position? c
    return Tolerance.standard.nearZero (principalAngle (Vec.angleAt p q r + x))
  | .fix v p => do
    let q ← positions.position? v
    return Vec.near Tolerance.standard q p
  | .selection s => s.evaluate? positions

/-- The constraint with its points and its number. -/
def text : Constraint → String
  | .distance a b x => "distance(" ++ a ++ "," ++ b ++ ")=" ++ shortest x
  | .angle a b c x => "angle(" ++ a ++ "," ++ b ++ "," ++ c ++ ")=" ++ shortest x
  | .fix v p => "fix(" ++ v ++ ")=(" ++ shortest p.x ++ "," ++ shortest p.y ++ ")"
  | .selection s => s.text

end Constraint

end PlanarSketch
