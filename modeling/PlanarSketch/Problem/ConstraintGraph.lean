/-
The graph of points and constraints, with an edge from each constraint to
each of its points.

Main definitions:
* `ConstraintGraph.addPoint`, `removePoint`, `addConstraint`,
  `removeConstraint`: changes;
* `ConstraintGraph.constraintsOn`: the constraints on a point, oldest first.
-/
import PlanarSketch.Graph.Basic
import PlanarSketch.Problem.Constraint

namespace PlanarSketch

/-- The key of a constraint. -/
abbrev ConstraintId := Key Constraint

/-- A vertex: a point or a constraint. -/
inductive ProblemVertex where
  | point (name : PointName)
  | constraint (id : ConstraintId)
deriving DecidableEq

/-- Points and constraints as a graph. -/
structure ConstraintGraph where
  graph : Graph ProblemVertex Unit

namespace ConstraintGraph

/-- The graph without points. -/
def empty : ConstraintGraph := ⟨.empty⟩

instance : Inhabited ConstraintGraph := ⟨empty⟩

/-- Whether the point is in the graph. -/
def hasPoint (g : ConstraintGraph) (v : PointName) : Bool := g.graph.hasVertex (.point v)

/-- Whether the constraint is in the graph. -/
def hasConstraint (g : ConstraintGraph) (id : ConstraintId) : Bool :=
  g.graph.hasVertex (.constraint id)

/-- Adds a point. -/
def addPoint (g : ConstraintGraph) (v : PointName) : ConstraintGraph :=
  ⟨g.graph.addVertex (.point v)⟩

/-- Removes a point; constraints on it stay without it. -/
def removePoint (g : ConstraintGraph) (v : PointName) : ConstraintGraph :=
  ⟨g.graph.removeVertex (.point v)⟩

/-- Adds a constraint and those of its points that are missing. -/
def addConstraint (g : ConstraintGraph) (id : ConstraintId) (names : List PointName) :
    ConstraintGraph :=
  ⟨names.foldl (fun g v => g.addEdge (.constraint id) (.point v) ())
    (g.graph.addVertex (.constraint id))⟩

/-- Removes a constraint. -/
def removeConstraint (g : ConstraintGraph) (id : ConstraintId) : ConstraintGraph :=
  ⟨g.graph.removeVertex (.constraint id)⟩

/-- The points, oldest first. -/
def points (g : ConstraintGraph) : List PointName :=
  g.graph.vertices.filterMap fun
    | .point v => some v
    | .constraint _ => none

/-- The constraints on a point, oldest first. -/
def constraintsOn (g : ConstraintGraph) (v : PointName) : List ConstraintId :=
  (g.graph.ingoing (.point v)).filterMap fun
    | .constraint id => some id
    | .point _ => none

end ConstraintGraph

end PlanarSketch
