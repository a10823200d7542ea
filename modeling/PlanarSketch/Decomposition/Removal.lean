/-
Undoing merges.

Removing a cluster undoes every merge that read it, and so removes everything
that was computed from it.  The inputs of an undone merge return to the top
level and are searched again; a derived hedgehog that nothing needs any more
goes away instead.

Main definitions:
* `Decomposition.dropMerge`: undoes one merge;
* `Decomposition.remove`: removes an added cluster;
* `Decomposition.setRoot`: chooses the rigid whose coordinates merges keep.
-/
import PlanarSketch.Decomposition.Checked

namespace PlanarSketch.Decomposition

/-- Whether a cluster in use has the point. -/
def hasPoint (d : Decomposition) (v : PointName) : Bool :=
  d.clusters.values.any fun n => v ∈ n.cluster

/-- Forgets a point that no cluster has any more. -/
def forgetPoint (d : Decomposition) (v : PointName) : Decomposition :=
  if d.hasPoint v then d
  else
    { d with
      chart := d.chart.removeVertex (.point v)
      points := d.points.erase v }

/-- Takes out a cluster that no merge reads. -/
def discard (d : Decomposition) (id : ClusterId) : Decomposition :=
  match d.clusters.find? id with
  | none => d
  | some node =>
    let bare :=
      { d with
        clusters := d.clusters.erase id
        chart := d.chart.removeVertex (.cluster id)
        topLevel := d.topLevel.erase id
        root := if d.root = some id then none else d.root }
    (node.cluster.points.toList.foldl forgetPoint bare).record (.clusterRemoved id)

/-- The decomposition with a cluster back on the top level, where it is searched again. -/
def returned (d : Decomposition) (id : ClusterId) : Decomposition :=
  { d with
    chart := d.chart.list .topLevel (.cluster id)
    topLevel := d.topLevel.insert id }
  |>.enqueue id

/-- The decomposition without a merge, whose output is still there. -/
def withoutMerge (d : Decomposition) (k : MergeId) : Decomposition :=
  { d with
    merges := d.merges.erase k
    chart := d.chart.removeVertex (.merge k) }
  |>.record (.mergeRemoved k)

/-- Returns a consumed cluster to the top level once no merge needs it.  A derived hedgehog is
dropped with its merge instead. -/
def restoreWith (drop : Decomposition → MergeId → Decomposition) (d : Decomposition)
    (id : ClusterId) : Decomposition :=
  if !d.clusters.contains id || d.isTopLevel id || d.isNeeded id then d
  else
    match d.determining? id with
    | some m =>
      if d.isDerived id then drop d m
      else d.returned id
    | none => d.returned id

/-- Undoes a merge: everything that was computed from its output goes first, then the output, and
then what the merge consumed returns.  Every level of the recursion has taken out a merge, so
there are at most as many levels as merges. -/
def dropMergeWithin : Nat → Decomposition → MergeId → Decomposition
  | 0, d, _ => d
  | levels + 1, d, m =>
    match d.merges.find? m with
    | none => d
    | some merge =>
      let d := d.withoutMerge m
      -- The merges above go before the output, and the inputs return last.
      let d := (d.consumers merge.output).foldl (dropMergeWithin levels) d
      let d := d.discard merge.output
      merge.consumed.foldl (restoreWith (dropMergeWithin levels)) d

/-- Undoes a merge. -/
def dropMerge (d : Decomposition) (m : MergeId) : Decomposition := dropMergeWithin d.merges.size d m

/-- Undoes every merge that reads a cluster. -/
def dropConsumers (d : Decomposition) (id : ClusterId) : Decomposition :=
  (d.consumers id).foldl dropMerge d

/-- Removes a cluster and everything that was computed from it. -/
def dropCluster (d : Decomposition) (id : ClusterId) : Decomposition :=
  (d.dropConsumers id).discard id

/-- Removes a cluster that was added, and carries out the merges that are possible then. -/
def remove (d : Decomposition) (id : ClusterId) : Except DecompositionError Decomposition :=
  if !d.clusters.contains id then .error .unknownCluster
  else if (d.determining? id).isSome then .error .derivedCluster
  else Checked.process (d.dropCluster id)

/-! ### The root -/

/-- Sets or clears the root mark of a cluster. -/
def markRoot (d : Decomposition) (mark : Bool) (id : ClusterId) : Decomposition :=
  { d with
    clusters := d.clusters.modify id fun n => { n with holdsRoot := mark }
    chart :=
      if mark then d.chart.list .root (.cluster id)
      else d.chart.removeEdge (.listing .root) (.cluster id) }

/-- Undoes every merge that reads a cluster, so that the cluster is searched again. -/
def rebuildDependents (d : Decomposition) (id : ClusterId) : Decomposition :=
  if d.clusters.contains id then
    let d := d.dropConsumers id
    if d.isTopLevel id then d.enqueue id else d
  else d

/-- Moves the root mark to another rigid, and undoes the merges that read the old root and those
that read the new one. -/
def reroot (d : Decomposition) (id : ClusterId) : Decomposition :=
  -- A new root that was computed from the old one goes away with the old one's merges.
  let old := d.root.filter (· ≠ id)
  let unmarked := old.elim d (d.markRoot false)
  let marked := { unmarked with root := some id }.markRoot true id
  (old.elim marked marked.rebuildDependents).rebuildDependents id

/-- Makes a rigid the root.  The merges that read the old root and those that read the new one are
undone and found again. -/
def setRoot (d : Decomposition) (id : ClusterId) : Except DecompositionError Decomposition :=
  match d.cluster? id with
  | none => .error .unknownCluster
  | some c => if !c.isRigid then .error .notRigid else Checked.process (d.reroot id)

end PlanarSketch.Decomposition
