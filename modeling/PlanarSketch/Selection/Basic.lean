/-
Selection constraints: yes-or-no questions about three points.

Two of them ask for the sense in which a triangle runs, two for the size of
the angle at its middle point.  They choose between mirror images.

Main definitions:
* `SelectionConstraint.evaluate?`: the answer on a configuration;
* `SelectionConstraint.text`: how a constraint is written.
-/
import PlanarSketch.Configuration

namespace PlanarSketch

/-- What is asked about three points. -/
inductive SelectionKind where
  | notClockwise
  | notCounterClockwise
  | notAcute
  | notObtuse
deriving DecidableEq

/-- A question about three points in a given order. -/
structure SelectionConstraint where
  kind : SelectionKind
  a : PointName
  b : PointName
  c : PointName
deriving DecidableEq

/-- Whether three positions fulfil a constraint. -/
def SelectionKind.holds : SelectionKind → Vec → Vec → Vec → Bool
  | .notClockwise, p, q, r => !Vec.isClockwise p q r
  | .notCounterClockwise, p, q, r => !Vec.isCounterclockwise p q r
  | .notAcute, p, q, r => !Vec.isAcute p q r
  | .notObtuse, p, q, r => !Vec.isObtuse p q r

/-- The name of a kind in texts. -/
def SelectionKind.text : SelectionKind → String
  | .notClockwise => "not_clockwise"
  | .notCounterClockwise => "not_counter_clockwise"
  | .notAcute => "not_acute"
  | .notObtuse => "not_obtuse"

namespace SelectionConstraint

/-- The three points, in the order of the question. -/
def names (s : SelectionConstraint) : List PointName := [s.a, s.b, s.c]

/-- The answer on a configuration that has all three points. -/
def evaluate? (s : SelectionConstraint) (conf : Configuration) : Option Bool := do
  let p ← conf.position? s.a
  let q ← conf.position? s.b
  let r ← conf.position? s.c
  return s.kind.holds p q r

/-- The kind and the three points. -/
def text (s : SelectionConstraint) : String :=
  s.kind.text ++ "(" ++ String.intercalate "," s.names ++ ")"

end SelectionConstraint

end PlanarSketch
