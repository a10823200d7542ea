/-
Where a relation stems from.

A cluster draws a relation from those inputs of its merge that imply it, and
these draw it from theirs.  Inputs are older, so every way back ends, and it
ends at a cluster that draws the relation from nobody: an origin.  The origins
can be collected in two ways, and both find the same.  One walks through the
merges by age, the other goes from a cluster to its inputs and calls itself.
Either takes the cluster itself for the origin if it has collected nothing;
this is right, since whatever a relation is drawn from has an origin.

* `Draws`, `Origin`: a step back, and where all ways back end;
* `Grounded.exists_origin`, `Grounded.origin_of_none_found`,
  `origin_of_found`: there is an origin, and what the origins of the inputs say
  about those of the cluster;
* `Explains.mem_sourcesAmong`: the walk through the merges finds the origins;
* `computedBy?`, `originsWithin?`: the merge of a cluster in the chart, and the
  way from a cluster to its inputs within a number of nested calls;
* `Drawn.exists_originsWithin?`: it comes to an end and finds the origins;
* `Solver.sources_run`: both after every run.
-/
import Mathlib.Data.Finset.Dedup
import Mathlib.Data.Finset.Lattice.Basic
import PlanarSketch.Proofs.Bookkeeping
import PlanarSketch.Proofs.Parts

namespace PlanarSketch

namespace Decomposition

variable {d : Decomposition} {id i o : ClusterId} {k : MergeId} {m : Merge} {ms : List Merge}
  {r : Relation}

/-! ### One step back -/

/-- `i` implies the relation, and the merge that computed `id` reads it. -/
def Draws (d : Decomposition) (r : Relation) (id i : ClusterId) : Prop :=
  ∃ k m, d.merges.find? k = some m ∧ m.output = id ∧ i ∈ m.inputs ∧ d.implies r i = true

theorem Draws.feeds (h : d.Draws r id i) : d.Feeds i id := by
  obtain ⟨k, m, hk, hout, hin, -⟩ := h
  exact ⟨k, m, hk, hin, hout⟩

theorem Draws.implies (h : d.Draws r id i) : d.implies r i = true := by
  obtain ⟨-, -, -, -, -, hr⟩ := h
  exact hr

theorem Grounded.draws_iff (hg : d.Grounded) (hk : d.merges.find? k = some m) :
    d.Draws r m.output i ↔ i ∈ m.inputs ∧ d.implies r i = true := by
  constructor
  · rintro ⟨k', m', hk', hout, hin⟩
    obtain rfl := hg.outputOnce k' k m' m hk' hk hout
    obtain rfl := Option.some_inj.1 (hk'.symm.trans hk)
    exact hin
  · exact fun hin => ⟨k, m, hk, rfl, hin⟩

/-! ### Origins -/

/-- Going back from `id` leads to `o` and no further. -/
def Origin (d : Decomposition) (r : Relation) (id o : ClusterId) : Prop :=
  Relation.ReflTransGen (d.Draws r) id o ∧ ∀ i, ¬d.Draws r o i

theorem Origin.leadsTo (h : d.Origin r id o) : d.LeadsTo o id :=
  h.1.swap.lift (fun j => j) fun _ _ hdraws => Draws.feeds hdraws

/-- An origin implies the relation if the cluster does. -/
theorem Origin.implies (h : d.Origin r id o) (hid : d.implies r id = true) :
    d.implies r o = true := by
  rcases Relation.ReflTransGen.cases_tail h.1 with he | ⟨j, -, hdraws⟩
  · rwa [he]
  · exact hdraws.implies

theorem origin_of_not_draws (h : ∀ i, ¬d.Draws r id i) : d.Origin r id o ↔ o = id := by
  constructor
  · rintro ⟨hback, -⟩
    rcases Relation.ReflTransGen.cases_head hback with he | ⟨j, hj, -⟩
    · exact he.symm
    · exact absurd hj (h j)
  · rintro rfl
    exact ⟨.refl, h⟩

theorem origin_of_draws (h : d.Draws r id i) :
    d.Origin r id o ↔ ∃ j, d.Draws r id j ∧ d.Origin r j o := by
  constructor
  · rintro ⟨hback, hend⟩
    rcases Relation.ReflTransGen.cases_head hback with rfl | ⟨j, hj, hrest⟩
    · exact absurd h (hend i)
    · exact ⟨j, hj, hrest, hend⟩
  · rintro ⟨j, hj, hrest, hend⟩
    exact ⟨hrest.head hj, hend⟩

/-- Every way back ends. -/
theorem Grounded.exists_origin (hg : d.Grounded) (r : Relation) (id : ClusterId) :
    ∃ o, d.Origin r id o := by
  -- What a relation is drawn from is older.
  induction hn : id.serial using Nat.strongRecOn generalizing id with
  | ind n ih =>
    by_cases h : ∃ i, d.Draws r id i
    · obtain ⟨i, hi⟩ := h
      obtain ⟨o, ho⟩ := ih i.serial (hn ▸ hg.serial_lt_of_feeds hi.feeds) i rfl
      exact ⟨o, (origin_of_draws hi).2 ⟨i, hi, ho⟩⟩
    · exact ⟨id, (origin_of_not_draws fun i hi => h ⟨i, hi⟩).2 rfl⟩

section Found

/-! `Found` stands for a collection of what the inputs have for origins. -/

variable {Found : ClusterId → Prop}

theorem origin_of_found (h : ∀ o, Found o ↔ ∃ i, d.Draws r id i ∧ d.Origin r i o) {a : ClusterId}
    (ha : Found a) : d.Origin r id o ↔ Found o := by
  obtain ⟨i, hi, -⟩ := (h a).1 ha
  rw [origin_of_draws hi, h]

/-- If nothing is found, nothing was to be searched. -/
theorem Grounded.origin_of_none_found (hg : d.Grounded)
    (h : ∀ o, Found o ↔ ∃ i, d.Draws r id i ∧ d.Origin r i o) (hnone : ∀ a, ¬Found a) :
    d.Origin r id o ↔ o = id := by
  refine origin_of_not_draws fun i hi => ?_
  obtain ⟨a, ha⟩ := hg.exists_origin r i
  exact hnone a ((h a).2 ⟨i, hi, ha⟩)

end Found

/-! ### The walk through the merges -/

/-- Walking through the merges of its history from the youngest to the oldest finds the origins of a
cluster. -/
theorem Explains.mem_sourcesAmong (h : d.Explains ms id) (hg : d.Grounded) :
    o ∈ d.sourcesAmong r ms id ↔ d.Origin r id o := by
  induction ms generalizing id o with
  | nil =>
    rw [sourcesAmong, List.mem_singleton]
    refine (origin_of_not_draws ?_).symm
    -- A cluster with no history is no output, so it draws on nothing.
    rintro i ⟨k, m, hk, rfl, -⟩
    exact absurd (h.complete m (Registry.mem_values_iff.2 ⟨k, hk⟩) .refl) List.not_mem_nil
  | cons m older ih =>
    rw [sourcesAmong]
    split
    · rename_i hout
      subst hout
      -- This is the merge that computed the cluster: its inputs are searched among the older ones.
      obtain ⟨k, hk⟩ := Registry.mem_values_iff.1 (h.mem_values m List.mem_cons_self)
      have hfound : ∀ o, o ∈ (m.inputs.filter (d.implies r)).flatMap (d.sourcesAmong r older) ↔
          ∃ i, d.Draws r m.output i ∧ d.Origin r i o := by
        intro o
        rw [List.mem_flatMap]
        refine exists_congr fun i => ?_
        rw [List.mem_filter, hg.draws_iff hk]
        exact and_congr_right fun hi => ih (h.of_input hg hi.1)
      split
      · rename_i hnil
        rw [List.mem_singleton]
        refine (hg.origin_of_none_found hfound ?_).symm
        rw [hnil]
        exact fun _ => List.not_mem_nil
      · rename_i hne
        obtain ⟨a, ha⟩ := List.exists_mem_of_ne_nil _ hne
        exact (origin_of_found hfound ha).symm
    · rename_i hne
      exact ih (h.of_other hg hne)

/-! ### From a cluster to its inputs -/

/-- The merge from which a dependency leads to the cluster in the chart. -/
def computedBy? (d : Decomposition) (id : ClusterId) : Option MergeId :=
  (d.chart.ingoing (.cluster id)).findSome? fun
    | .merge k =>
      if d.chart.weight? (.merge k) (.cluster id) = some .dependency then some k else none
    | _ => none

/-- The clusters that a cluster was computed from in one step. -/
def madeFrom (d : Decomposition) (id : ClusterId) : List ClusterId :=
  match (d.computedBy? id).bind d.merges.find? with
  | some m => m.inputs
  | none => []

/-- The clusters that a relation of `id` stems from, within a number of nested calls: those that are
found for the inputs that imply the relation, or `id` itself if none are. -/
def originsWithin? (d : Decomposition) (r : Relation) : Nat → ClusterId → Option (Finset ClusterId)
  | 0, _ => none
  | calls + 1, id => do
    let found ← (d.madeFrom id).foldlM (fun found i =>
      if d.implies r i then do return found ∪ (← d.originsWithin? r calls i) else return found) ∅
    return if found = ∅ then {id} else found

theorem ties_dependency_cluster_iff :
    d.Ties (.merge k) .dependency (.cluster id) ↔
      ∃ m, d.merges.find? k = some m ∧ m.output = id := by
  constructor
  · generalize hy : Vertex.cluster id = y
    rintro (_ | _ | _ | _ | _ | _ | _ | hk)
    exact ⟨_, hk, (Vertex.cluster.inj hy).symm⟩
  · rintro ⟨m, hk, rfl⟩
    exact .writes hk

theorem Drawn.exists_of_computedBy? (h : d.Drawn) (hk : d.computedBy? id = some k) :
    ∃ m, d.merges.find? k = some m ∧ m.output = id := by
  obtain ⟨v, -, hv⟩ := List.exists_of_findSome?_eq_some hk
  split at hv
  · split at hv
    · rename_i hweight
      obtain rfl := Option.some_inj.1 hv
      exact ties_dependency_cluster_iff.1 ((h.edge ..).1 hweight)
    · cases hv
  · cases hv

/-- The chart knows the merge of a cluster. -/
theorem Drawn.computedBy?_eq_some (h : d.Drawn) (hg : d.Grounded) :
    d.computedBy? id = some k ↔ ∃ m, d.merges.find? k = some m ∧ m.output = id := by
  refine ⟨h.exists_of_computedBy?, ?_⟩
  rintro ⟨m, hk, hout⟩
  have hweight := (h.edge ..).2 (ties_dependency_cluster_iff.2 ⟨m, hk, hout⟩)
  have hin : Vertex.merge k ∈ d.chart.ingoing (.cluster id) :=
    (h.linked.ingoing _ _).2 (Graph.hasEdge_iff.2 ⟨_, hweight⟩)
  cases hfound : d.computedBy? id with
  | none =>
    have hnone := List.findSome?_eq_none_iff.1 hfound _ hin
    simp [hweight] at hnone
  | some k' =>
    obtain ⟨m', hk', hout'⟩ := h.exists_of_computedBy? hfound
    rw [hg.outputOnce k' k m' m hk' hk (hout'.trans hout.symm)]

theorem Drawn.draws_iff (h : d.Drawn) (hg : d.Grounded) :
    d.Draws r id i ↔ i ∈ (d.madeFrom id).filter (d.implies r) := by
  unfold madeFrom
  rw [List.mem_filter]
  cases hk : d.computedBy? id with
  | none =>
    refine iff_of_false ?_ (fun hi => List.not_mem_nil hi.1)
    rintro ⟨k, m, hm, hout, -⟩
    rw [(h.computedBy?_eq_some hg).2 ⟨m, hm, hout⟩] at hk
    cases hk
  | some k =>
    obtain ⟨m, hm, rfl⟩ := (h.computedBy?_eq_some hg).1 hk
    rw [hg.draws_iff hm, Option.bind_some, hm]

/-- Collecting succeeds if it does for every member of the list that is asked. -/
theorem exists_foldlM_union {p : ClusterId → Bool} {f : ClusterId → Option (Finset ClusterId)}
    {P : ClusterId → ClusterId → Prop} {l : List ClusterId}
    (hf : ∀ i ∈ l.filter p, ∃ s, f i = some s ∧ ∀ o, o ∈ s ↔ P i o) (found : Finset ClusterId) :
    ∃ s, l.foldlM (fun found i => if p i then do return found ∪ (← f i) else return found) found =
        some s ∧ ∀ o, o ∈ s ↔ o ∈ found ∨ ∃ i ∈ l.filter p, P i o := by
  induction l generalizing found with
  | nil => exact ⟨found, rfl, fun o => by simp⟩
  | cons i rest ih =>
    rw [List.foldlM_cons]
    by_cases hp : p i = true
    · rw [List.filter_cons_of_pos hp] at hf ⊢
      obtain ⟨t, ht, htP⟩ := hf i List.mem_cons_self
      obtain ⟨s, hs, hsP⟩ := ih (fun j hj => hf j (List.mem_cons_of_mem i hj)) (found ∪ t)
      refine ⟨s, by simpa [hp, ht] using hs, fun o => ?_⟩
      rw [hsP, Finset.mem_union, htP, or_assoc, List.exists_mem_cons_iff]
    · rw [List.filter_cons_of_neg hp] at hf ⊢
      obtain ⟨s, hs, hsP⟩ := ih hf found
      exact ⟨s, by simpa [hp] using hs, hsP⟩

/-- Going from a cluster to its inputs comes to an end, and it finds the origins.  The calls are
nested no deeper than the cluster is old. -/
theorem Drawn.exists_originsWithin? (h : d.Drawn) (hg : d.Grounded) (r : Relation) {calls : Nat}
    (hcalls : id.serial < calls) :
    ∃ s, d.originsWithin? r calls id = some s ∧ ∀ o, o ∈ s ↔ d.Origin r id o := by
  -- By induction on the calls: inputs are older than their output.
  induction calls generalizing id with
  | zero => exact absurd hcalls (Nat.not_lt_zero _)
  | succ calls ih =>
    have hinputs : ∀ i ∈ (d.madeFrom id).filter (d.implies r),
        ∃ s, d.originsWithin? r calls i = some s ∧ ∀ o, o ∈ s ↔ d.Origin r i o := by
      intro i hi
      have holder := hg.serial_lt_of_feeds ((h.draws_iff hg).2 hi).feeds
      exact ih (Nat.lt_of_lt_of_le holder (Nat.le_of_lt_succ hcalls))
    obtain ⟨found, hfold, hmem⟩ := exists_foldlM_union hinputs ∅
    have hfound : ∀ o, o ∈ found ↔ ∃ i, d.Draws r id i ∧ d.Origin r i o := by
      intro o
      rw [hmem, or_iff_right (Finset.notMem_empty o)]
      exact exists_congr fun i => and_congr_left' (h.draws_iff hg).symm
    refine ⟨if found = ∅ then {id} else found, ?_, fun o => ?_⟩
    · rw [originsWithin?, hfold]
      rfl
    · split
      · rename_i hnone
        rw [Finset.mem_singleton]
        refine (hg.origin_of_none_found hfound fun a => ?_).symm
        rw [hnone]
        exact Finset.notMem_empty a
      · rename_i hsome
        obtain ⟨a, ha⟩ := Finset.nonempty_iff_ne_empty.2 hsome
        exact (origin_of_found hfound ha).symm

end Decomposition

namespace Solver

open Decomposition

/-- After every run, going from a cluster in use to those inputs of its merge that imply a relation,
and from these to theirs, comes to an end.  It finds the sources of the relation: the clusters where
it arrives and from which it cannot go on.  There is one, and each of them implies the relation and
is the cluster itself or one that it was computed from. -/
theorem sources_run (config : SolverConfig) (ops : List Operation) :
    let d := (run config ops).decomposition
    ∀ id c r, d.cluster? id = some c → c.implies r = true →
      (∀ calls, id.serial < calls → d.originsWithin? r calls id = some (d.sources id r).toFinset) ∧
      (∀ o, o ∈ d.sources id r ↔
        Relation.ReflTransGen (d.Draws r) id o ∧ ∀ i, ¬d.Draws r o i) ∧
      d.sources id r ≠ [] ∧
      ∀ o ∈ d.sources id r,
        d.LeadsTo o id ∧ ∃ c', d.cluster? o = some c' ∧ c'.implies r = true := by
  intro d id c r hc hr
  have hreach : d.Reachable := reachable_run config ops
  have hg := hreach.sound.grounded
  -- The walk through the merges finds the same as the recursion, and that is what the three parts
  -- use.
  have hmem : ∀ o, o ∈ d.sources id r ↔ d.Origin r id o := fun o =>
    (hreach.lineage.explains id).mem_sourcesAmong hg
  have himplies : d.implies r id = true := by
    rw [Decomposition.implies, hc]
    exact hr
  refine ⟨fun calls hcalls => ?_, hmem, ?_, fun o ho => ?_⟩
  · obtain ⟨s, hs, hsmem⟩ := hreach.drawn.exists_originsWithin? hg r hcalls
    rw [hs]
    congr 1
    ext o
    rw [hsmem, List.mem_toFinset, hmem]
  · obtain ⟨o, ho⟩ := hg.exists_origin r id
    exact List.ne_nil_of_mem ((hmem o).2 ho)
  · have horigin := (hmem o).1 ho
    exact ⟨horigin.leadsTo, (Option.any_eq_true _ _).1 (horigin.implies himplies)⟩

/-- Three sides make a triangle, and a triangle on one of them is added to it.  This side is known
from two clusters, the one at two steps and the other at one. -/
theorem sources_run_twoTriangles :
    let ops : List Operation := [.add (.rigid (.ofList ["a", "b"])),
      .add (.rigid (.ofList ["b", "c"])), .add (.rigid (.ofList ["c", "a"])),
      .add (.rigid (.ofList ["b", "c", "d"]))]
    let d := (run {} ops).decomposition
    let side : Relation := .distance (.between "b" "c")
    d.cluster? ⟨6⟩ = some (.rigid (.ofList ["a", "b", "c", "d"])) ∧
      d.sources ⟨6⟩ side = [⟨5⟩, ⟨2⟩] ∧ d.originsWithin? side 7 ⟨6⟩ = some {⟨5⟩, ⟨2⟩} ∧
      d.LeadsTo ⟨2⟩ ⟨6⟩ ∧ ∀ i, ¬d.Draws side ⟨2⟩ i := by
  intro ops d side
  have hcluster : d.cluster? ⟨6⟩ = some (.rigid (.ofList ["a", "b", "c", "d"])) := by
    decide +kernel
  have hsources : d.sources ⟨6⟩ side = [⟨5⟩, ⟨2⟩] := by decide +kernel
  obtain ⟨hcalls, hmem, -, hall⟩ := sources_run {} ops ⟨6⟩ _ side hcluster (by decide)
  have htwo : ⟨2⟩ ∈ d.sources ⟨6⟩ side := by simp [hsources]
  refine ⟨hcluster, hsources, ?_, (hall _ htwo).1, ((hmem _).1 htwo).2⟩
  rw [hcalls 7 (by decide), hsources]
  rfl

end Solver

end PlanarSketch
