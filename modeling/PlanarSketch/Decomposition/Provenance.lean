/-
Where the knowledge of a cluster comes from.

A merge is younger than its inputs, so walking through the merges by age
visits everything before what depends on it.  Both walks below are recursions
on the list of merges.

Main definitions:
* `Decomposition.dependsOn`: whether one cluster was computed from another;
* `Decomposition.sources`: the clusters that a relation stems from;
* `Decomposition.consistentInputs`: whether inputs that imply the same
  relations have them from the same clusters.
-/
import PlanarSketch.Decomposition.Basic

namespace PlanarSketch

/-- Two lists with the same members. -/
def sameMembers {α : Type} [DecidableEq α] (l k : List α) : Bool :=
  l.all (· ∈ k) && k.all (· ∈ l)

namespace Decomposition

/-- The clusters computed from those in `reached` by merges in order of age. -/
def descendants (reached : List ClusterId) : List Merge → List ClusterId
  | [] => reached
  | m :: rest =>
    if m.inputs.any (· ∈ reached) then descendants (reached ++ [m.output]) rest
    else descendants reached rest

/-- Whether `id` is `source` or was computed from it. -/
def dependsOn (d : Decomposition) (id source : ClusterId) : Bool :=
  (descendants [source] d.merges.values).contains id

/-- Whether a cluster in use implies a relation. -/
def implies (d : Decomposition) (r : Relation) (id : ClusterId) : Bool :=
  (d.cluster? id).any fun c => c.implies r

/-- The clusters that a relation of `id` stems from, where the merges are given youngest first: the
sources of those inputs of its merge that imply the relation, or `id` itself if none does. -/
def sourcesAmong (d : Decomposition) (r : Relation) : List Merge → ClusterId → List ClusterId
  | [], id => [id]
  | m :: older, id =>
    if m.output = id then
      match (m.inputs.filter (d.implies r)).flatMap (sourcesAmong d r older) with
      | [] => [id]
      | found => found
    else sourcesAmong d r older id

/-- The clusters that a relation of `id` stems from. -/
def sources (d : Decomposition) (id : ClusterId) (r : Relation) : List ClusterId :=
  d.sourcesAmong r d.mergesByYouth id

/-- Both clusters have from the same sources what they both imply. -/
def agreeOnSources (d : Decomposition) (id₁ id₂ : ClusterId) : Bool :=
  match d.cluster? id₁, d.cluster? id₂ with
  | some c₁, some c₂ =>
    match c₁.intersection c₂ with
    | none => true
    | some common => common.relations.all fun r => sameMembers (d.sources id₁ r) (d.sources id₂ r)
  | _, _ => true

/-- Every relation that two of the inputs imply stems from the same clusters on both sides. -/
def consistentInputs (d : Decomposition) (inputs : List ClusterId) : Bool :=
  (pairs inputs).all fun p => d.agreeOnSources p.1 p.2

end Decomposition

end PlanarSketch
