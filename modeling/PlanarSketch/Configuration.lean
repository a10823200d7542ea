/-
Configurations: positions for a set of named points.

A configuration is the value that flows through the solver.  Two
configurations are compared and united after moving the second onto the first
along the points that they share.

Main definitions:
* `Configuration.basis`: what the shared points allow to align;
* `Configuration.merge`, `Configuration.mergeScaled`: the union of two
  configurations after a rigid motion, or after a similarity;
* `Configuration.congruent`: equality up to a rigid motion.
-/
import PlanarSketch.Collection.OrderedMap
import PlanarSketch.Collection.NameSet
import PlanarSketch.Collection.Pairs
import PlanarSketch.Plane.Frame

namespace PlanarSketch

/-- Positions of named points, in order of arrival. -/
structure Configuration where
  points : OrderedMap PointName Vec
  /-- Set when a union on the way to this configuration could not orient its parts. -/
  underconstrained : Bool

namespace Configuration

/-- A fully oriented configuration. -/
def ofPoints (points : OrderedMap PointName Vec) : Configuration := ⟨points, false⟩

/-- Reads points in order; of a repeated name the first place and the last position stay. -/
def ofList (l : List (PointName × Vec)) : Configuration := ofPoints (.ofList l)

/-- A single point. -/
def single (name : PointName) (p : Vec) : Configuration := ofList [(name, p)]

instance : Inhabited Configuration := ⟨ofPoints .empty⟩

/-- The same positions, flagged as not oriented. -/
def asUnderconstrained (c : Configuration) : Configuration := { c with underconstrained := true }

/-- The names, in order of arrival. -/
def names (c : Configuration) : List PointName := c.points.keys

/-- The number of points. -/
def size (c : Configuration) : Nat := c.points.size

/-- Whether the point has a position. -/
def contains (c : Configuration) (name : PointName) : Bool := c.points.contains name

/-- The position of a point. -/
def position? (c : Configuration) (name : PointName) : Option Vec := c.points.find? name

/-- The distance of two points that both have positions. -/
def distance? (c : Configuration) (a b : PointName) : Option Float := do
  let q ← c.position? b
  let p ← c.position? a
  return (q - p).norm

/-- Every position through a transformation. -/
def transform (c : Configuration) (f : Frame) : Configuration :=
  { c with points := c.points.mapValues f.apply }

/-- The positions of the listed names, in the order of the list; names without one are skipped. -/
def select (c : Configuration) (names : List PointName) : Configuration :=
  { c with
    points := .ofList (names.filterMap fun v => (c.position? v).map fun p => (v, p)) }

/-! ### Alignment -/

/-- A shared point: its position in the first and in the second configuration. -/
structure Shared where
  here : Vec
  there : Vec

/-- The shared points, in the order of the first configuration. -/
def shared (a b : Configuration) : List Shared :=
  a.points.entries.filterMap fun e => (b.position? e.1).map fun q => ⟨e.2, q⟩

/-- What the shared points of two configurations allow to align. -/
inductive Basis where
  /-- No shared point. -/
  | nothing
  /-- One usable anchor. -/
  | anchor (p : Shared)
  /-- Two shared points that are distinct in both configurations. -/
  | segment (p q : Shared)

/-- Two shared points are distinct in both configurations. -/
def Shared.distinct (p q : Shared) : Bool :=
  !Tolerance.standard.nearZero (q.here - p.here).norm &&
    !Tolerance.standard.nearZero (q.there - p.there).norm

/-- The first usable segment, else the first shared point. -/
def basis (a b : Configuration) : Basis :=
  let common := a.shared b
  match (pairs common).find? fun s => s.1.distinct s.2 with
  | some (p, q) => .segment p q
  | none =>
    match common with
    | [] => .nothing
    | p :: _ => .anchor p

/-- The alignment leaves a freedom: nothing is shared, or only one place is and neither side is a
lone point.  Shared points that coincide count as one place and always leave a freedom. -/
def ambiguous (a b : Configuration) : Bool :=
  match a.basis b with
  | .nothing => true
  | .anchor _ => decide (1 < (a.shared b).length) || (decide (1 < a.size) && decide (1 < b.size))
  | .segment _ _ => false

/-- How a segment is turned into a frame: with unit axes, or with itself as unit. -/
abbrev FrameMaker := Vec → Vec → Option Frame

/-- The transformation that takes the second configuration onto the first. -/
def aligner (make : FrameMaker) (a b : Configuration) : Frame :=
  match a.basis b with
  | .nothing => .identity
  | .anchor p => .translation (p.here - p.there)
  | .segment p q =>
    match make p.there q.there, make p.here q.here with
    | some source, some target => (Frame.change? source target).getD .identity
    | _, _ => .identity

/-- An alignment of the two is not unique, or one of them was not oriented before. -/
def alignedFreely (a b : Configuration) : Bool :=
  a.ambiguous b || (a.underconstrained || b.underconstrained)

/-- The points of both after moving the second by `f`; where both have a position, the first one's
stays. -/
def uniteAlong (f : Frame) (a b : Configuration) : Configuration where
  points := b.points.entries.foldl (fun m e => m.insertNew e.1 (f.apply e.2)) a.points
  underconstrained := a.alignedFreely b

/-- The rigid motion that takes the second configuration onto the first. -/
def rigidAligner (a b : Configuration) : Frame := aligner Frame.rigid? a b

/-- The similarity that takes the second configuration onto the first. -/
def scaledAligner (a b : Configuration) : Frame := aligner Frame.scaled? a b

/-- Moves the second configuration rigidly onto the first and takes all points. -/
def merge (a b : Configuration) : Configuration := uniteAlong (a.rigidAligner b) a b

/-- Moves and scales the second configuration onto the first and takes all points. -/
def mergeScaled (a b : Configuration) : Configuration := uniteAlong (a.scaledAligner b) a b

/-! ### Congruence -/

/-- Equality up to a rigid motion: the same names, and after alignment the same positions.  The
comparison is approximate, so it is neither symmetric nor transitive in general. -/
def congruent (a b : Configuration) : Bool :=
  if a.size ≠ b.size || !a.names.all b.contains then false
  else
    let f := a.rigidAligner b
    a.points.entries.all fun e =>
      match b.position? e.1 with
      | some q => Vec.near Tolerance.standard e.2 (f.apply q)
      | none => false

end Configuration

end PlanarSketch
