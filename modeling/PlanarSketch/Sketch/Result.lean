/-
What a sketch knows about its solution.

The result is a tree.  Its nodes are clusters, and below a cluster stand the
inputs of the merge that produced it, derived hedgehogs left out.

Main definitions:
* `ClusterFlag`, `Constrainedness`: verdicts on a node and on the whole;
* `ResultTree`: a cluster with its solutions and its parts;
* `Sketch.result`, `Sketch.constrainedness`, `Sketch.solutions?`.
-/
import PlanarSketch.Sketch.Basic

namespace PlanarSketch

/-- The verdict on one node. -/
inductive ClusterFlag where
  | wellConstrained
  /-- Solved, but a merge could not orient its parts. -/
  | incidentalUnder
  /-- No candidate is left. -/
  | incidentalOver
  /-- Something is said twice and independently. -/
  | structuralOver
  /-- The parts do not form one rigid. -/
  | structuralUnder
  | unsolved
deriving DecidableEq

/-- The verdict on a sketch. -/
inductive Constrainedness where
  | unsolved
  | wellConstrained
  | underConstrained
  | overConstrained
  | error
deriving DecidableEq

/-- The verdict on a sketch from the verdict on the top of its tree. -/
def ClusterFlag.constrainedness : ClusterFlag → Constrainedness
  | .wellConstrained => .wellConstrained
  | .incidentalUnder => .underConstrained
  | .structuralUnder => .underConstrained
  | .incidentalOver => .overConstrained
  | .structuralOver => .overConstrained
  | .unsolved => .unsolved

/-- A cluster with its solutions and the clusters that it was merged from. -/
inductive ResultTree where
  | node (points : List PointName) (solutions : List Configuration) (parts : List ResultTree)
    (flag : ClusterFlag)

namespace ResultTree

/-- The verdict on the top node. -/
def flag : ResultTree → ClusterFlag
  | .node _ _ _ f => f

end ResultTree

namespace Sketch

/-- The verdict on a cluster with the given candidates. -/
def flagOf (overconstrained : Bool) (kind : ClusterKind) (candidates : Option Candidates) :
    ClusterFlag :=
  if overconstrained then .structuralOver
  else
    match candidates with
    | none => .unsolved
    | some [] => .incidentalOver
    | some confs =>
      if confs.any Configuration.underconstrained then .incidentalUnder
      else if kind ≠ .rigid then .structuralUnder
      else .wellConstrained

/-- The node of a cluster above given parts. -/
def nodeOf (s : Solver) (id : ClusterId) (parts : List ResultTree) :
    Except SolverError ResultTree :=
  match s.decomposition.cluster? id with
  | none => .error (.decomposition .unknownCluster)
  | some c =>
    let candidates := s.candidates? id
    .ok (.node c.points.toList (candidates.getD []) parts
      (flagOf (s.decomposition.isOverconstrained id) c.kind candidates))

/-- The tree of a cluster, where the merges are given youngest first. -/
def treeAmong (s : Solver) : List Merge → ClusterId → Except SolverError ResultTree
  | [], id => nodeOf s id []
  | m :: older, id =>
    if m.output = id then do
      let shown := m.inputs.filter fun i => !s.decomposition.isDerived i
      let parts ← shown.mapM (treeAmong s older)
      nodeOf s id parts
    else treeAmong s older id

/-- The tree of a cluster. -/
def treeOf (s : Solver) (id : ClusterId) : Except SolverError ResultTree :=
  treeAmong s s.decomposition.mergesByYouth id

/-- The tree of the only top-level cluster, or a node above the trees of all of them. -/
def result (s : Sketch) : Except SolverError ResultTree := do
  let trees ← s.solver.decomposition.topLevel.toList.mapM (treeOf s.solver)
  match trees with
  | [tree] => return tree
  | [] => return .node s.problem.points.keys [] [] .unsolved
  | _ => return .node s.problem.points.keys [] trees .structuralUnder

/-- The verdict on the sketch. -/
def constrainedness (s : Sketch) : Constrainedness :=
  match s.result with
  | .ok tree => tree.flag.constrainedness
  | .error _ => .error

/-- The solutions, if there is exactly one top-level cluster and it has been computed. -/
def solutions? (s : Sketch) : Option (List Configuration) :=
  match s.solver.decomposition.topLevel.toList with
  | [id] => s.solver.candidates? id
  | _ => none

end Sketch

end PlanarSketch
