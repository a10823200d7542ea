/-
Carrying out merges.

A cluster that comes to the top level is put on a worklist and searched for
merges.  The output of a merge is put there too, and a cluster that is still
on the top level after its merge is searched again, until nothing is left.

Main definitions:
* `Decomposition.carryOut`: a plan becomes a merge;
* `Decomposition.process`: the worklist is emptied;
* `Decomposition.receive`: a new cluster that is to be searched.
-/
import PlanarSketch.Decomposition.Search

namespace PlanarSketch

/-- Why a change of a decomposition is refused. -/
inductive DecompositionError where
  | unknownCluster
  | notRigid
  | derivedCluster
  | cluster (e : ClusterError)
deriving DecidableEq

/-- The wording of each error. -/
def DecompositionError.message : DecompositionError → String
  | .unknownCluster => "Unknown cluster"
  | .notRigid => "Cluster is not rigid"
  | .derivedCluster => "Cluster was produced by a merge and cannot be removed directly"
  | .cluster e => e.message

/-- A merge about to be added, whose output has no key yet. -/
structure MergeDraft where
  rule : MergeRule
  inputs : List ClusterId
  consumed : List ClusterId
  output : Cluster
  redundant : Bool
  geometry : MergeGeometry
  prototypeConstraints : List SelectionConstraint

/-- The merge that a plan asks for once its inputs have keys. -/
def Plan.draft (plan : Plan) (ids : List ClusterId) : MergeDraft where
  rule := plan.rule
  inputs := ids
  consumed := ids
  output := plan.output
  redundant := plan.redundant
  geometry := plan.geometry
  prototypeConstraints := plan.prototypeConstraints

namespace Decomposition

/-- Puts a cluster on the worklist. -/
def enqueue (d : Decomposition) (id : ClusterId) : Decomposition :=
  { d with worklist := d.worklist ++ [id] }

/-- Adds a cluster to the top level. -/
def insertCluster (d : Decomposition) (node : ClusterNode) : ClusterId × Decomposition :=
  let id := d.clusters.nextKey
  (id,
    { d with
      clusters := d.clusters.insert node
      chart := d.chart.drawCluster id node
      topLevel := d.topLevel.insert id
      points := d.points.insertMany node.cluster.points.toList }
    |>.record (.clusterAdded id))

/-- Whether a rigid among the inputs holds the root. -/
def someHoldsRoot (d : Decomposition) (inputs : List ClusterId) : Bool :=
  inputs.any fun id => d.holdsRoot id && (d.cluster? id).any Cluster.isRigid

/-- Adds the output of a merge to the top level, and the merge; takes what it consumes off the top
level. -/
def addMerge (d : Decomposition) (draft : MergeDraft) : ClusterId × Decomposition :=
  -- Inputs are compared before the output exists.
  let consistent := d.consistentInputs draft.inputs
  let overconstrained := draft.redundant && !consistent
  let (out, d) := d.insertCluster
    { cluster := draft.output
      overconstrained := overconstrained || draft.inputs.any d.isOverconstrained
      holdsRoot := draft.output.isRigid && d.someHoldsRoot draft.inputs }
  let id := d.merges.nextKey
  let merge : Merge :=
    { rule := draft.rule
      inputs := draft.inputs
      consumed := draft.consumed
      output := out
      consistent := consistent
      overconstrained := overconstrained
      geometry := draft.geometry
      prototypeConstraints := draft.prototypeConstraints }
  (out,
    { d with
      merges := d.merges.insert merge
      chart := d.chart.drawMerge id merge
      topLevel := draft.consumed.foldl OrderedSet.erase d.topLevel }
    |>.record (.mergeAdded id))

/-- Derives a hedgehog.  Its source stays on the top level. -/
def derive (d : Decomposition) (source : ClusterId) (centre : PointName) (arms : NameSet) :
    ClusterId × Decomposition :=
  d.addMerge
    { rule := .deriveHedgehog
      inputs := [source]
      consumed := []
      output := .hedgehog centre arms
      redundant := false
      geometry := .hedgehog centre arms
      prototypeConstraints := [] }

/-- The key of an input, after deriving it if need be. -/
def provide (d : Decomposition) : PlanInput → ClusterId × Decomposition
  | .existing id => (id, d)
  | .derived source centre arms => d.derive source centre arms

/-- The keys of all inputs, derived one after the other. -/
def provideAll (d : Decomposition) : List PlanInput → List ClusterId × Decomposition
  | [] => ([], d)
  | i :: rest =>
    let (id, d) := d.provide i
    let (ids, d) := d.provideAll rest
    (id :: ids, d)

/-- Carries out a plan. -/
def carryOut (d : Decomposition) (plan : Plan) : ClusterId × Decomposition :=
  let (inputs, d) := d.provideAll plan.inputs
  d.addMerge (plan.draft inputs)

/-- Searches the first cluster of the worklist and carries out what is found. -/
def processStep (d : Decomposition) (id : ClusterId) : Decomposition :=
  if d.isTopLevel id then
    match d.search id with
    | none => d
    | some plan =>
      let (out, d) := d.carryOut plan
      -- The output is searched before the cluster that found it.
      let d := d.enqueue out
      if d.isTopLevel id then d.enqueue id else d
  else d

/-- Empties the worklist within a number of steps. -/
def processWithin : Nat → Decomposition → Decomposition
  | 0, d => d
  | steps + 1, d =>
    match d.worklist with
    | [] => d
    | id :: rest => processWithin steps ({ d with worklist := rest }.processStep id)

/-- A number of steps that empties the worklist.  A merge covers a triangle of points that no
rigid or balloon on the top level covered, lets a hedgehog grow, or leaves fewer clusters on the
top level; and it puts at most two clusters on the worklist. -/
def searchBudget (d : Decomposition) : Nat :=
  let n := d.points.size
  let t := d.topLevel.size
  d.worklist.length + 2 * (2 * (n * n * n) + t + t * n) + 1

/-- Empties the worklist. -/
def process (d : Decomposition) : Decomposition := processWithin d.searchBudget d

/-- Puts a new cluster on the top level and on the worklist. -/
def receive (d : Decomposition) (c : Cluster) : ClusterId × Decomposition :=
  let (id, d) := d.insertCluster ⟨c, false, false⟩
  (id, d.enqueue id)

end Decomposition

end PlanarSketch
