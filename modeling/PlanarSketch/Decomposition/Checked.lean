/-
Merging with its checks.

A search looks at clusters under keys, and a merge makes a new cluster.  A key
may not be in use, and a new cluster may be too small to say anything.  The
steps below are those that empty the worklist, each with the checks that it
makes before it changes anything, and the first check that fails ends the
whole change.

Main definitions:
* `Decomposition.lookUp`, `Decomposition.requireValid`: the checks;
* `Decomposition.Checked.carryOut`, `Checked.process`: the steps with their
  checks;
* `Decomposition.add`: a new cluster and all merges that it allows.
-/
import PlanarSketch.Decomposition.Growth

namespace PlanarSketch.Decomposition

/-- Requires that clusters are in use. -/
def lookUp (d : Decomposition) (ids : List ClusterId) : Except DecompositionError Unit :=
  if ids.all d.clusters.contains then .ok () else .error .unknownCluster

/-- Requires that a new cluster says something. -/
def requireValid (c : Cluster) : Except DecompositionError Unit := c.validate.mapError .cluster

namespace Checked

/-- Adds a merge, whose inputs have to be in use. -/
def addMerge (d : Decomposition) (draft : MergeDraft) :
    Except DecompositionError (ClusterId × Decomposition) := do
  d.lookUp draft.inputs
  return d.addMerge draft

/-- The key of an input, after deriving it if need be. -/
def provide (d : Decomposition) : PlanInput → Except DecompositionError (ClusterId × Decomposition)
  | .existing id => do
    d.lookUp [id]
    return d.provide (.existing id)
  | .derived source centre arms => do
    d.lookUp [source]
    requireValid (.hedgehog centre arms)
    return d.provide (.derived source centre arms)

/-- The keys of all inputs, derived one after the other. -/
def provideAll (d : Decomposition) :
    List PlanInput → Except DecompositionError (List ClusterId × Decomposition)
  | [] => return ([], d)
  | i :: rest => do
    let (id, d) ← provide d i
    let (ids, d) ← provideAll d rest
    return (id :: ids, d)

/-- Carries out a plan. -/
def carryOut (d : Decomposition) (plan : Plan) :
    Except DecompositionError (ClusterId × Decomposition) := do
  requireValid plan.output
  let (inputs, d) ← provideAll d plan.inputs
  addMerge d (plan.draft inputs)

/-- Searches the first cluster of the worklist and carries out what is found. -/
def processStep (d : Decomposition) (id : ClusterId) : Except DecompositionError Decomposition :=
  if d.isTopLevel id then do
    -- The cluster itself, its neighbours and whatever may cover a triangle are on the top level.
    d.lookUp d.topLevel.toList
    match d.search id with
    | none => return d
    | some plan =>
      let (out, d) ← carryOut d plan
      let d := d.enqueue out
      return if d.isTopLevel id then d.enqueue id else d
  else return d

/-- Empties the worklist within a number of steps. -/
def processWithin : Nat → Decomposition → Except DecompositionError Decomposition
  | 0, d => return d
  | steps + 1, d =>
    match d.worklist with
    | [] => return d
    | id :: rest => do
      let d ← processStep { d with worklist := rest } id
      processWithin steps d

/-- Empties the worklist. -/
def process (d : Decomposition) : Except DecompositionError Decomposition :=
  processWithin d.searchBudget d

end Checked

/-- Adds a cluster and carries out every merge that it allows. -/
def add (d : Decomposition) (c : Cluster) :
    Except DecompositionError (ClusterId × Decomposition) := do
  requireValid c
  let (id, d) := d.receive c
  return (id, ← Checked.process d)

end PlanarSketch.Decomposition
