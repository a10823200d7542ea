/-
Flags of overconstraint.

What a merge finds out about its inputs is written down when it is carried
out, and never looked at again: whether they have what they share from the
same clusters, and whether its output rests on something that was said twice.
It stays right because the history of a cluster stays the same for as long as
the cluster does.  Later merges have new outputs, the choice of a root touches
neither clusters nor merges, and whatever loses a part of its history goes
with it.

* `Coincides`: two decompositions have the same history up to some clusters;
* `Coincides.sources_eq`, `Coincides.consistentInputs_eq`: then they trace
  relations to the same sources;
* `PartOf.coincides`, `Remnant.coincides`: growing and shrinking keep history;
* `Flagged`: the law of flags, cluster by cluster and merge by merge, after
  any operation (`Reachable.flagged`);
* `Flagged.isOverconstrained_iff`: so a flag stands for a merge of the history;
* `Solver.flags_run`: both for all runs.
-/
import Mathlib.Data.List.Sort
import PlanarSketch.Proofs.RootMarks

namespace PlanarSketch

/-- Registries that have the same values with a property, under the same keys, have them in the same
order. -/
theorem Registry.filter_values_eq {α : Type} {r r' : Registry α} {p : α → Bool}
    (h : ∀ k a, p a = true → (r'.find? k = some a ↔ r.find? k = some a)) :
    r'.values.filter p = r.values.filter p := by
  have hsorted : ∀ q : Registry α, (q.entries.filter fun e => p e.2).Pairwise fun e f =>
      e.1.serial < f.1.serial := fun q => (List.pairwise_map.1 q.sorted).filter _
  have hentries : (r'.entries.filter fun e => p e.2) = r.entries.filter fun e => p e.2 := by
    have hirrefl : Std.Irrefl fun e f : Key α × α => e.1.serial < f.1.serial :=
      ⟨fun e => Nat.lt_irrefl _⟩
    have hanti : Std.Antisymm fun e f : Key α × α => e.1.serial < f.1.serial :=
      ⟨fun e f h₁ h₂ => absurd (Nat.lt_trans h₁ h₂) (Nat.lt_irrefl _)⟩
    refine (hsorted r').eq_of_mem_iff (hsorted r) fun e => ?_
    rw [List.mem_filter, List.mem_filter]
    refine and_congr_left fun he => ?_
    rw [← find?_eq_some, ← find?_eq_some]
    exact h e.1 e.2 he
  show (r'.entries.map Prod.snd).filter p = (r.entries.map Prod.snd).filter p
  rw [List.filter_map, List.filter_map]
  exact congrArg (List.map Prod.snd) hentries

namespace Decomposition

variable {d d' : Decomposition} {c id : ClusterId} {P : ClusterId → Prop}

/-! ### The same history -/

/-- Two decompositions have the same clusters with the same flags, computed by the same merges, as
far as `P` goes; and `P` goes as far as the history of whatever it holds of. -/
structure Coincides (d d' : Decomposition) (P : ClusterId → Prop) : Prop where
  closed : ∀ k m, d.merges.find? k = some m → P m.output → ∀ i ∈ m.inputs, P i
  cluster : ∀ i, P i → d'.cluster? i = d.cluster? i
  flag : ∀ i, P i → d'.isOverconstrained i = d.isOverconstrained i
  merge : ∀ k m, P m.output → (d'.merges.find? k = some m ↔ d.merges.find? k = some m)

theorem lookUps_congr (h : d'.clusters.find? id = d.clusters.find? id) :
    d'.cluster? id = d.cluster? id ∧ d'.isOverconstrained id = d.isOverconstrained id := by
  simp only [cluster?, isOverconstrained, h, and_self]

/-- Sources depend on nothing but the merges of the history. -/
theorem sourcesAmong_filter [DecidablePred P] {r : Relation} {ms : List Merge}
    (hclosed : ∀ m ∈ ms, P m.output → ∀ i ∈ m.inputs, P i)
    (hc : ∀ i, P i → d'.cluster? i = d.cluster? i) (hid : P id) :
    d'.sourcesAmong r (ms.filter fun m => P m.output) id = d.sourcesAmong r ms id := by
  induction ms generalizing id with
  | nil => rfl
  | cons m older ih =>
    have holder : ∀ {i}, P i → _ := ih fun m' hm' => hclosed m' (List.mem_cons_of_mem _ hm')
    rw [List.filter_cons]
    by_cases hm : P m.output
    · have hin := hclosed m List.mem_cons_self hm
      have himplies : m.inputs.filter (d'.implies r) = m.inputs.filter (d.implies r) :=
        List.filter_congr fun i hi => by rw [implies, implies, hc i (hin i hi)]
      have hfound : ((m.inputs.filter (d.implies r)).flatMap
          (d'.sourcesAmong r (older.filter fun m => P m.output))) =
            (m.inputs.filter (d.implies r)).flatMap (d.sourcesAmong r older) :=
        List.flatMap_congr fun i hi => holder (hin i (List.mem_filter.1 hi).1)
      rw [if_pos (decide_eq_true hm), sourcesAmong, sourcesAmong, himplies, hfound, holder hid]
    · -- The merge computes something else, so the walk passes it by.
      have hout : m.output ≠ id := fun he => hm (he ▸ hid)
      rw [if_neg (mt of_decide_eq_true hm), holder hid]
      exact (if_neg hout).symm

theorem Coincides.sources_eq (h : d.Coincides d' P) (hid : P id) (r : Relation) :
    d'.sources id r = d.sources id r := by
  classical
  -- Among the merges with outputs in `P` nothing has changed, and no other merge matters there.
  have hyouth : (d'.mergesByYouth.filter fun m => P m.output) =
      d.mergesByYouth.filter fun m => P m.output := by
    unfold mergesByYouth
    rw [List.filter_reverse, List.filter_reverse,
      Registry.filter_values_eq fun k m hm => h.merge k m (of_decide_eq_true hm)]
  have hclosed : ∀ m ∈ d.mergesByYouth, P m.output → ∀ i ∈ m.inputs, P i := by
    intro m hm
    obtain ⟨k, hk⟩ := Registry.mem_values_iff.1 (List.mem_reverse.1 hm)
    exact h.closed k m hk
  have hclosed' : ∀ m ∈ d'.mergesByYouth, P m.output → ∀ i ∈ m.inputs, P i := by
    intro m hm hP
    obtain ⟨k, hk⟩ := Registry.mem_values_iff.1 (List.mem_reverse.1 hm)
    exact h.closed k m ((h.merge k m hP).1 hk) hP
  calc d'.sourcesAmong r d'.mergesByYouth id
      = d'.sourcesAmong r (d'.mergesByYouth.filter fun m => P m.output) id :=
        (sourcesAmong_filter hclosed' (fun _ _ => rfl) hid).symm
    _ = d'.sourcesAmong r (d.mergesByYouth.filter fun m => P m.output) id := by rw [hyouth]
    _ = d.sourcesAmong r d.mergesByYouth id := sourcesAmong_filter hclosed h.cluster hid

/-- Inputs with the same history agree or disagree as before. -/
theorem Coincides.consistentInputs_eq (h : d.Coincides d' P) {inputs : List ClusterId}
    (hin : ∀ i ∈ inputs, P i) : d'.consistentInputs inputs = d.consistentInputs inputs := by
  unfold consistentInputs
  rw [Bool.eq_iff_iff, List.all_eq_true, List.all_eq_true]
  refine forall₂_congr fun p hp => ?_
  have hsub := (mem_pairs_iff.1 hp).subset
  have h₁ := hin p.1 (hsub (by simp))
  have h₂ := hin p.2 (hsub (by simp))
  unfold agreeOnSources
  rw [h.cluster p.1 h₁, h.cluster p.2 h₂]
  simp only [h.sources_eq h₁, h.sources_eq h₂]

/-- The history of what was there is the same after growing. -/
theorem PartOf.coincides (h : d.PartOf d') (hg : d.Grounded) : d.Coincides d' d.Live where
  closed := fun k m hk _ => (hg.merge k m hk).inputs
  cluster := fun _ hi => (lookUps_congr (h.find?_eq hi)).1
  flag := fun _ hi => (lookUps_congr (h.find?_eq hi)).2
  merge := fun k m hl => ⟨fun hk => h.find?_of_output hk hl, h.merges k m⟩

/-- The history of what is left is the same after shrinking, as long as every merge stays whose
output does. -/
theorem Remnant.coincides (h : d'.Remnant d) (hg : d'.Grounded)
    (hm : ∀ k m, d.merges.find? k = some m → d'.Live m.output → d'.merges.find? k = some m) :
    d.Coincides d' d'.Live where
  closed := fun k m hk hl => (hg.merge k m (hm k m hk hl)).inputs
  cluster := fun _ hi => (lookUps_congr (h.find?_eq hi)).1
  flag := fun _ hi => (lookUps_congr (h.find?_eq hi)).2
  merge := fun k m hl => ⟨h.merges k m, fun hk => hm k m hk hl⟩

/-! ### The law of flags -/

/-- The cluster is flagged if and only if the merge that computed it is overconstrained or reads a
cluster that is flagged. -/
def FlagLaw (d : Decomposition) (c : ClusterId) : Prop :=
  d.isOverconstrained c = true ↔ ∃ k m, d.merges.find? k = some m ∧ m.output = c ∧
    (m.overconstrained = true ∨ ∃ i ∈ m.inputs, d.isOverconstrained i = true)

/-- Every flag is as the law has it, and every merge says of its inputs what is the case. -/
structure Flagged (d : Decomposition) : Prop where
  flag : ∀ c, d.Live c → d.FlagLaw c
  consistent : ∀ k m, d.merges.find? k = some m → m.consistent = d.consistentInputs m.inputs

/-- The law for a cluster depends on its history. -/
theorem FlagLaw.transfer (h : d.FlagLaw c) (hco : d.Coincides d' P) (hc : P c) :
    d'.FlagLaw c := by
  unfold FlagLaw at h ⊢
  rw [hco.flag c hc, h]
  refine exists_congr fun k => exists_congr fun m => ?_
  constructor
  · rintro ⟨hk, rfl, hm⟩
    refine ⟨(hco.merge k m hc).2 hk, rfl, hm.imp_right fun ⟨i, hi, hflag⟩ => ⟨i, hi, ?_⟩⟩
    rwa [hco.flag i (hco.closed k m hk hc i hi)]
  · rintro ⟨hk, rfl, hm⟩
    have hk := (hco.merge k m hc).1 hk
    refine ⟨hk, rfl, hm.imp_right fun ⟨i, hi, hflag⟩ => ⟨i, hi, ?_⟩⟩
    rwa [← hco.flag i (hco.closed k m hk hc i hi)]

theorem Flagged.consistent_eq (h : d.Flagged) (hco : d.Coincides d' P) {k : MergeId} {m : Merge}
    (hk : d.merges.find? k = some m) (hout : P m.output) :
    m.consistent = d'.consistentInputs m.inputs := by
  rw [hco.consistentInputs_eq (hco.closed k m hk hout)]
  exact h.consistent k m hk

/-- The law holds where everything in use has its old history. -/
theorem Flagged.transfer (h : d.Flagged) (hco : d.Coincides d' P)
    (hlive : ∀ c, d'.Live c → d.Live c ∧ P c)
    (hout : ∀ k m, d'.merges.find? k = some m → P m.output) : d'.Flagged where
  flag := fun c hc => (h.flag c (hlive c hc).1).transfer hco (hlive c hc).2
  consistent := fun k m hk =>
    h.consistent_eq hco ((hco.merge k m (hout k m hk)).1 hk) (hout k m hk)

theorem Flagged.remnant (h : d.Flagged) (hg : d'.Grounded) (hrem : d'.Remnant d)
    (hm : ∀ k m, d.merges.find? k = some m → d'.Live m.output → d'.merges.find? k = some m) :
    d'.Flagged :=
  h.transfer (hrem.coincides hg hm) (fun _ hc => ⟨hrem.live hc, hc⟩)
    fun k m hk => (hg.merge k m hk).output

/-- The law speaks of clusters, flags and merges alone. -/
theorem Flagged.congr (h : d.Flagged) (hc : ∀ i, d'.cluster? i = d.cluster? i)
    (hflag : ∀ i, d'.isOverconstrained i = d.isOverconstrained i) (hm : d'.merges = d.merges) :
    d'.Flagged := by
  have hco : d.Coincides d' fun _ => True :=
    ⟨fun _ _ _ _ _ _ => trivial, fun i _ => hc i, fun i _ => hflag i, fun k m _ => by rw [hm]⟩
  exact h.transfer hco (fun c hl => ⟨(live_congr (hc c)).1 hl, trivial⟩) fun _ _ _ => trivial

/-! ### Changes -/

theorem isOverconstrained_insertCluster (node : ClusterNode) :
    (d.insertCluster node).2.isOverconstrained d.clusters.nextKey = node.overconstrained := by
  show (((d.clusters.insert node).find? d.clusters.nextKey).map _).getD false = _
  rw [Registry.find?_insert, if_pos rfl]
  rfl

/-- A new cluster is not flagged, and no merge has computed it. -/
theorem Flagged.receive (h : d.Flagged) (hg : d.Grounded) (x : Cluster) :
    (d.receive x).2.Flagged := by
  have hco := (partOf_receive d x).coincides hg
  refine ⟨fun c hl => ?_, fun k m hk => h.consistent_eq hco hk (hg.merge k m hk).output⟩
  rcases (live_insertCluster ⟨x, false, false⟩).1 hl with hl | rfl
  · exact (h.flag c hl).transfer hco hl
  · have hflag : (d.receive x).2.isOverconstrained d.clusters.nextKey = false :=
      isOverconstrained_insertCluster ⟨x, false, false⟩
    refine iff_of_false (by simp [hflag]) ?_
    rintro ⟨k, m, hk, hout, -⟩
    exact not_live_nextKey (hout ▸ (hg.merge k m hk).output)

/-- A merge compares its inputs and flags its output as the law has it. -/
theorem Flagged.addMerge {draft : MergeDraft} (h : d.Flagged) (hg : d.Grounded)
    (hin : ∀ id ∈ draft.inputs, d.Live id) : (d.addMerge draft).2.Flagged := by
  have hco := (partOf_addMerge d draft).coincides hg
  refine ⟨fun c hl => ?_, fun k m hk => ?_⟩
  · rcases live_addMerge.1 hl with hl | rfl
    · exact (h.flag c hl).transfer hco hl
    · -- The flag of the output is computed from the inputs when the merge is added.
      have hflag : (d.addMerge draft).2.isOverconstrained d.clusters.nextKey =
          (draft.redundant && !d.consistentInputs draft.inputs ||
            draft.inputs.any d.isOverconstrained) :=
        isOverconstrained_insertCluster (d.outputFor draft)
      have hany : draft.inputs.any d.isOverconstrained = true ↔
          ∃ i ∈ draft.inputs, (d.addMerge draft).2.isOverconstrained i = true := by
        rw [List.any_eq_true]
        exact exists_congr fun i => and_congr_right fun hi => by rw [hco.flag i (hin i hi)]
      unfold FlagLaw
      rw [hflag, Bool.or_eq_true, hany]
      constructor
      · exact fun hm => ⟨_, _, find?_addMerge.2 (.inr ⟨rfl, rfl⟩), rfl, hm⟩
      · rintro ⟨k, m, hk, hout, hm⟩
        rcases find?_addMerge.1 hk with hk | ⟨-, rfl⟩
        · -- No older merge computes the new key.
          exact absurd (hout ▸ (hg.merge k m hk).output) not_live_nextKey
        · exact hm
  · rcases find?_addMerge.1 hk with hk | ⟨-, rfl⟩
    · exact h.consistent_eq hco hk (hg.merge k m hk).output
    · exact (hco.consistentInputs_eq hin).symm

theorem Flagged.process (h : d.Flagged) (hs : d.Sound) : d.process.Flagged :=
  (hs.process_of_search (P := Flagged) (fun _ _ hx => hx.congr (fun _ => rfl) (fun _ => rfl) rfl)
    (fun _ _ _ hx hflag htop hfound => by
      obtain ⟨ps, hf⟩ := finding_of_search htop hfound
      exact hx.grounded.carryOut_induction (hf.sound hx.grounded)
        (fun _ _ hg hfits hy => hy.addMerge hg hfits.inputs) hflag) h).2

theorem isOverconstrained_markRoot (mark : Bool) (o : ClusterId) :
    (d.markRoot mark o).isOverconstrained id = d.isOverconstrained id := by
  show (((d.clusters.modify o _).find? id).map ClusterNode.overconstrained).getD false = _
  rw [Registry.find?_modify]
  split
  · rw [Option.map_map]
    rfl
  · rfl

/-- Moving the root mark touches no flag. -/
theorem Flagged.withRootMark (h : d.Flagged) (o : ClusterId) : (d.withRootMark o).Flagged := by
  refine h.congr (fun _ => cluster?_withRootMark o) (fun i => ?_) (merges_withRootMark d o)
  unfold Decomposition.withRootMark
  rw [isOverconstrained_markRoot]
  cases d.root.filter (· ≠ o) with
  | none => rfl
  | some old => exact isOverconstrained_markRoot false old

theorem Flagged.rebuildDependents (h : d.Flagged) (hs : d.Sound) (hf : d.Lineage) (o : ClusterId) :
    (d.rebuildDependents o).Flagged := by
  obtain ⟨hs', hrem⟩ := hs.rebuildDependents o
  refine h.remnant hs'.grounded hrem fun k m hk hl => ?_
  by_cases ho : d.Live o
  · rw [merges_rebuildDependents ho]
    exact hs.find?_dropConsumers hf hk ((live_rebuildDependents_iff ho).1 hl)
  · rwa [rebuildDependents_of_not_live ho]

theorem Flagged.reroot (h : d.Flagged) (hs : d.Sound) (hf : d.Lineage) (o : ClusterId) :
    (d.reroot o).Flagged := by
  have hs₀ := hs.withRootMark o
  have hf₀ := hf.withRootMark o
  rw [reroot_eq]
  cases d.root.filter (· ≠ o) with
  | none => exact (h.withRootMark o).rebuildDependents hs₀ hf₀ o
  | some old =>
    obtain ⟨hs₁, hrem⟩ := hs₀.rebuildDependents old
    exact ((h.withRootMark o).rebuildDependents hs₀ hf₀ old).rebuildDependents hs₁
      (hf₀.of_merges hrem.merges) o

/-- After any operation the flags are right. -/
theorem Reachable.flagged (h : d.Reachable) : d.Flagged := by
  refine h.induction_of_changes ?_ (fun _ hx => hx.congr (fun _ => rfl) (fun _ => rfl) rfl)
    (fun _ c hd _ hx => hx.receive hd.sound.grounded c) ?_
    (fun _ id _ hd _ hx => hx.reroot hd.sound hd.lineage id) fun _ hs hx => hx.process hs
  · exact ⟨fun _ hl => (by cases hl), fun _ _ hk => (by cases hk)⟩
  · intro d id hd hdet hx
    obtain ⟨hs, hrem⟩ := hd.sound.dropCluster hdet
    exact hx.remnant hs.grounded hrem fun k m hk hl =>
      hd.sound.find?_dropCluster hd.lineage hdet hk hl

/-- The flagged clusters are those that an overconstrained merge leads to. -/
theorem Flagged.isOverconstrained_iff (h : d.Flagged) (hg : d.Grounded) (hc : d.Live c) :
    d.isOverconstrained c = true ↔ ∃ k m, d.merges.find? k = some m ∧
      m.overconstrained = true ∧ d.LeadsTo m.output c := by
  constructor
  · -- The inputs of the merge that computed a cluster are older than it.
    induction hn : c.serial using Nat.strongRecOn generalizing c with
    | ind n ih =>
      intro hflag
      obtain ⟨k, m, hk, rfl, hm | ⟨i, hi, hinput⟩⟩ := (h.flag c hc).1 hflag
      · exact ⟨k, m, hk, hm, .refl⟩
      · have hlt := (hg.merge k m hk).younger i hi
        obtain ⟨k', m', hk', hm', hlead⟩ :=
          ih i.serial (hn ▸ hlt) ((hg.merge k m hk).inputs i hi) rfl hinput
        exact ⟨k', m', hk', hm', hlead.tail ⟨k, m, hk, hi, rfl⟩⟩
  · rintro ⟨k, m, hk, hm, hlead⟩
    clear hc
    induction hlead with
    | refl => exact (h.flag _ (hg.merge k m hk).output).2 ⟨k, m, hk, rfl, .inl hm⟩
    | tail _ hstep ih =>
      obtain ⟨k', m', hk', hin, rfl⟩ := hstep
      exact (h.flag _ (hg.merge k' m' hk').output).2 ⟨k', m', hk', rfl, .inr ⟨_, hin, ih⟩⟩

end Decomposition

open Decomposition

/-- After every run a cluster in use is flagged as overconstrained if and only if some merge in use
from which it was computed, directly or not, is overconstrained; and what every merge says about the
consistency of its inputs is what comparing them again would find. -/
theorem Solver.flags_run (config : SolverConfig) (ops : List Operation) :
    let d := (run config ops).decomposition
    (∀ c, d.Live c → (d.isOverconstrained c = true ↔ ∃ k m, d.merges.find? k = some m ∧
      m.overconstrained = true ∧ d.LeadsTo m.output c)) ∧
    ∀ k m, d.merges.find? k = some m → m.consistent = d.consistentInputs m.inputs := by
  intro d
  have hreach := reachable_run config ops
  have hflagged := hreach.flagged
  exact ⟨fun c hc => hflagged.isOverconstrained_iff hreach.sound.grounded hc, hflagged.consistent⟩

end PlanarSketch
