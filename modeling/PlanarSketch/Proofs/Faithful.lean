/-
The dataflow follows the decomposition faithfully.

A changed decomposition comes with a journal, whose edits are replayed one by
one.  Each of them was written when the decomposition changed, so the proof
that a mirror results goes along with the changes of the decomposition: the
journal so far leads to a mirror of the decomposition as it was then.

* `Clears`, `Unwinds.induction_of_steps`: a removal takes out merges one by
  one, and a cluster only when no merge reads or computes it;
* `Traces`: replaying the journal so far goes through and leads to a mirror,
  kept by every change of a decomposition (`Traces.process`,
  `Traces.dropCluster`, `Traces.reroot`);
* `Faithful`: a mirror in which every method is consistent, kept by every call
  that succeeds (`faithful_run`).
-/
import PlanarSketch.Proofs.Upkeep

namespace PlanarSketch

namespace Decomposition

variable {d e x x' : Decomposition} {k : MergeId} {id : ClusterId} {c : Chore}
  {new rest todo : List Chore} {gone gone' : List MergeId}

/-! ### The order of chores -/

/-- Before a cluster is discarded, every merge is undone that reads or computes it, apart from those
that are gone already. -/
def Clears (x : Decomposition) : List MergeId → List Chore → Prop
  | _, [] => True
  | gone, .undo k :: rest => x.Clears (k :: gone) rest
  | gone, .discard o :: rest =>
    (∀ k m, x.merges.find? k = some m → k ∉ gone → o ∉ m.inputs ∧ m.output ≠ o) ∧
      x.Clears gone rest
  | gone, .restore _ :: rest => x.Clears gone rest

theorem Clears.mono (h : x.Clears gone todo) (hm : ∀ k m, x'.merges.find? k = some m →
    x.merges.find? k = some m ∧ (k ∈ gone → k ∈ gone')) : x'.Clears gone' todo := by
  induction todo generalizing gone gone' with
  | nil => trivial
  | cons c rest ih =>
    cases c with
    | undo j =>
      refine ih h fun k m hk => ⟨(hm k m hk).1, fun hmem => ?_⟩
      exact (List.mem_cons.1 hmem).elim (fun he => he ▸ List.mem_cons_self)
        fun hmem => List.mem_cons_of_mem _ ((hm k m hk).2 hmem)
    | discard o =>
      refine ⟨fun k m hk hno => ?_, ih h.2 hm⟩
      exact h.1 k m (hm k m hk).1 fun hmem => hno ((hm k m hk).2 hmem)
    | restore o => exact ih h hm

theorem Clears.undo {ks : List MergeId} (h : x.Clears (ks.reverse ++ gone) rest) :
    x.Clears gone (ks.map .undo ++ rest) := by
  induction ks generalizing gone with
  | nil => exact h
  | cons k ks ih =>
    have hk : x.Clears (ks.reverse ++ k :: gone) rest := by
      rwa [List.reverse_cons, List.append_assoc] at h
    exact ih hk

theorem Clears.restore {ids : List ClusterId} (h : x.Clears gone rest) :
    x.Clears gone (ids.map .restore ++ rest) := by
  induction ids with
  | nil => exact h
  | cons o ids ih => exact ih

/-- Every chore leaves the others in order. -/
theorem Clears.step (h : x.Clears [] (c :: rest)) (hc : c.Does x new x')
    (honce : ∀ k₁ k₂ m₁ m₂, x.merges.find? k₁ = some m₁ → x.merges.find? k₂ = some m₂ →
      m₁.output = m₂.output → k₁ = k₂) : x'.Clears [] (new ++ rest) := by
  cases hc with
  | @gone k hk =>
    have hrest : x.Clears [k] rest := h
    -- The merge is gone already, so there is nothing to wait for.
    refine hrest.mono fun j m hj => ⟨hj, fun hmem => ?_⟩
    rw [List.mem_singleton.1 hmem, hk] at hj
    cases hj
  | @undone k m hk =>
    have hrest : x.Clears [k] rest := h
    rw [List.append_assoc, List.cons_append]
    -- The readers of its output are undone first, then the output goes, and its inputs come last.
    refine .undo ⟨fun j m' hj hno => ?_, .restore (hrest.mono fun j m' hj => ?_)⟩
    · -- No other merge reads or computes the output then.
      obtain ⟨hne, hj'⟩ := find?_withoutMerge.1 hj
      refine ⟨fun hin => hno ?_, fun hout => hne (honce k j m m' hk hj' hout.symm)⟩
      rw [List.append_nil, List.mem_reverse]
      exact mem_consumers_iff.2 ⟨m', hj, hin⟩
    · obtain ⟨hne, hj⟩ := find?_withoutMerge.1 hj
      exact ⟨hj, fun hmem => absurd (List.mem_singleton.1 hmem).symm hne⟩
  | discarded o => exact h.2.mono fun k m hk => ⟨by rwa [discard_merges] at hk, fun hmem => hmem⟩
  | kept o => exact h
  | @derived k m hk hr hfree =>
    have hrest : x.Clears [] rest := h
    have hnext : x.Clears [k] rest :=
      hrest.mono fun j m hj => ⟨hj, fun hmem => absurd hmem List.not_mem_nil⟩
    exact hnext
  | returned =>
    have hrest : x.Clears [] rest := h
    exact hrest.mono fun j m hj => ⟨hj, fun hmem => hmem⟩

/-- A removal takes out merges, returns clusters to the top level and discards clusters that no
merge reads or computes then; what all of this keeps is kept by the removal. -/
theorem Unwinds.induction_of_steps {T : Decomposition → Prop} (h : Unwinds todo d e)
    (hg : d.Grounded) (hclear : d.Clears [] todo)
    (hmerge : ∀ x k m, x.merges.find? k = some m → T x → T (x.withoutMerge k))
    (hdiscard : ∀ x o, (∀ k m, x.merges.find? k = some m → o ∉ m.inputs ∧ m.output ≠ o) → T x →
      T (x.discard o))
    (hreturn : ∀ x o, T x → T (x.returned o)) (ht : T d) : T e := by
  refine (h.induction (I := fun todo x => d.Swept x ∧ x.Clears [] todo ∧ T x)
    (fun c new rest x x' hc hI => ?_) ⟨.refl d, hclear, ht⟩).2.2
  obtain ⟨hs, hx, hT⟩ := hI
  refine ⟨hs.step hc, hx.step hc fun k₁ k₂ m₁ m₂ h₁ h₂ => ?_, ?_⟩
  · exact hg.outputOnce k₁ k₂ m₁ m₂ (hs.merges k₁ m₁ h₁) (hs.merges k₂ m₂ h₂)
  · cases hc with
    | gone hk => exact hT
    | undone hk => exact hmerge x _ _ hk hT
    | discarded o => exact hdiscard x o (fun k m hk => hx.1 k m hk List.not_mem_nil) hT
    | kept o => exact hT
    | derived hk hr hfree => exact hT
    | returned => exact hreturn x _ hT

theorem clears_consumers (d : Decomposition) (id : ClusterId) :
    d.Clears [] ((d.consumers id).map .undo) := by
  have h : d.Clears [] ((d.consumers id).map .undo ++ []) := .undo trivial
  rwa [List.append_nil] at h

theorem clears_removal (hid : d.determining? id = none) : d.Clears [] (d.removal id) := by
  refine .undo ⟨fun k m hk hno => ⟨fun hin => hno ?_, determining?_eq_none.1 hid k m hk⟩, trivial⟩
  rw [List.append_nil, List.mem_reverse]
  exact mem_consumers_iff.2 ⟨m, hk, hin⟩

end Decomposition

namespace Solver

open Decomposition

variable {s s' s₀ : Solver} {x x' d : Decomposition} {id : ClusterId} {k : MergeId} {m : Merge}
  {c : CellId Candidates} {r : CellRole}

/-! ### A whole journal -/

/-- Replaying the journal from `s₀` on goes through and leads to a mirror. -/
def Traces (s₀ : Solver) (x : Decomposition) : Prop :=
  ∃ s, (x.journal.forM replay).run.run s₀ = (.ok (), s) ∧ Mirrors x s

theorem Traces.congr (h : Traces s₀ x) (hl : ∀ id, x'.Live id ↔ x.Live id)
    (hm : x'.merges = x.merges) (hj : x'.journal = x.journal) : Traces s₀ x' := by
  obtain ⟨s, hs, hmirrors⟩ := h
  refine ⟨s, ?_, hmirrors.congr hl hm rfl rfl rfl rfl rfl hmirrors.formed⟩
  rw [hj]
  exact hs

/-- One more edit. -/
theorem Traces.edit {e : Edit} (h : Traces s₀ x) (hj : x'.journal = x.journal ++ [e])
    (hedit : ∀ s, s.decomposition = s₀.decomposition → Mirrors x s →
      ∃ s', (replay e).run.run s = (.ok (), s') ∧ Mirrors x' s') : Traces s₀ x' := by
  obtain ⟨s₁, h₁, hmirrors⟩ := h
  have hd := keeps_forM x.journal keeps_replay s₀
  rw [h₁] at hd
  obtain ⟨s₂, h₂, hmirrors'⟩ := hedit s₁ hd hmirrors
  refine ⟨s₂, ?_, hmirrors'⟩
  rw [hj]
  show (forM (x.journal ++ [e]) replay : SolverM Unit).run.run s₀ = _
  rw [List.forM_append]
  exact bind_eq_ok.2 ⟨(), s₁, h₁, bind_eq_ok.2 ⟨(), s₂, h₂, pure_eq_ok.2 ⟨rfl, rfl⟩⟩⟩

theorem Traces.insertCluster (h : Traces s₀ x) (node : ClusterNode) :
    Traces s₀ (x.insertCluster node).2 := by
  refine h.edit (e := .clusterAdded x.clusters.nextKey) rfl fun s _ hm => ?_
  obtain ⟨s', hr⟩ := exists_wireCluster s x.clusters.nextKey
  exact ⟨s', hr, hm.wireCluster not_live_nextKey (fun _ => live_insertCluster node) rfl hr⟩

/-- A merge that is still there when the journal is replayed. -/
theorem Traces.addMerge {draft : MergeDraft} (h : Traces s₀ x) (hx : x.Grounded)
    (hin : ∀ id ∈ draft.inputs, x.Live id)
    (hd : ∀ k m, (x.addMerge draft).2.merges.find? k = some m →
      s₀.decomposition.merges.find? k = some m) : Traces s₀ (x.addMerge draft).2 := by
  refine (h.insertCluster (x.outputFor draft)).edit (e := .mergeAdded x.merges.nextKey) rfl
    fun s hs hm => ?_
  have hk := hd x.merges.nextKey _ (find?_addMerge.2 (.inr ⟨rfl, rfl⟩))
  -- The output is new, so no merge knows it.
  have hnew : ∀ {id}, x.Live id → id ≠ x.clusters.nextKey := fun hl he =>
    not_live_nextKey (he ▸ hl)
  obtain ⟨s', hr⟩ := hm.exists_wireMerge (m := x.mergeFor draft) x.merges.nextKey
    (fun id hid => (live_insertCluster _).2 (.inl (hin id hid)))
    ((live_insertCluster _).2 (.inr rfl)) (fun hself => hnew (hin _ hself) rfl) fun k m hk =>
      ⟨fun hself => hnew ((hx.merge k m hk).inputs _ hself) rfl, hnew (hx.merge k m hk).output⟩
  refine ⟨s', ?_, hm.wireMerge (Registry.find?_eq_none.2 x.merges.nextKey_not_mem_keys)
    (fun _ => Iff.rfl) (fun _ _ => find?_addMerge) hr⟩
  simp only [replay]
  rw [Change.run_get_bind, hs, hk]
  exact hr

/-- Searching for merges. -/
theorem Traces.process (h : Traces s₀ x) (hx : x.Sound)
    (hd : s₀.decomposition.merges = x.process.merges) : Traces s₀ x.process := by
  -- What is not undone any more is there in the end.
  let P : Decomposition → Prop := fun y => y.PartOf x.process → Traces s₀ y
  have hgrow : x.process.Sound ∧ P x.process := by
    refine hx.process_of_search (P := P) (fun y w hy hpart => ?_)
      (fun y id plan hs hy htop hfound => ?_) fun _ => h
    · have hsame : y.PartOf { y with worklist := w } := .of_eq rfl rfl rfl rfl
      exact (hy (hsame.trans hpart)).congr (fun _ => Iff.rfl) rfl rfl
    · obtain ⟨ps, hf⟩ := finding_of_search htop hfound
      refine hs.grounded.carryOut_induction (P := P) (hf.sound hs.grounded)
        (fun z draft hg hfits hz hpart => ?_) hy
      refine (hz ((partOf_addMerge z draft).trans hpart)).addMerge hg hfits.inputs fun k m hk => ?_
      rw [hd]
      exact hpart.merges k m hk
  exact hgrow.2 (.refl _)

theorem Traces.withoutMerge (h : Traces s₀ x) (hk : x.merges.find? k = some m) :
    Traces s₀ (x.withoutMerge k) := by
  refine h.edit (e := .mergeRemoved k) rfl fun s _ hm => ?_
  obtain ⟨s', hr⟩ := exists_unwireMerge s k
  exact ⟨s', hr, hm.unwireMerge hk (fun _ => Iff.rfl) (fun _ _ => find?_withoutMerge) hr⟩

theorem Traces.discard (h : Traces s₀ x)
    (hfree : ∀ k m, x.merges.find? k = some m → id ∉ m.inputs ∧ m.output ≠ id) :
    Traces s₀ (x.discard id) := by
  cases hn : x.clusters.find? id with
  | none =>
    rw [discard_eq_self (Registry.find?_eq_none.1 hn)]
    exact h
  | some node =>
    obtain ⟨p, _, hp, -⟩ := discard_of_find? hn
    have hj : (x.discard id).journal = x.journal ++ [.clusterRemoved id] := by rw [hp]
    refine h.edit hj fun s _ hm => ?_
    obtain ⟨s', hr⟩ := exists_unwireCluster s id
    exact ⟨s', hr, hm.unwireCluster (Registry.mem_keys_of_find? hn) hfree (fun _ => live_discard)
      (discard_merges x id) hr⟩

/-- Undoing merges. -/
theorem Traces.unwinds {todo : List Chore} (h : Traces s₀ x) (hu : Unwinds todo x x')
    (hx : x.Grounded) (hclear : x.Clears [] todo) : Traces s₀ x' :=
  hu.induction_of_steps hx hclear (fun _ _ _ hk hy => hy.withoutMerge hk)
    (fun _ _ hfree hy => hy.discard hfree)
    (fun _ _ hy => hy.congr (fun _ => Iff.rfl) rfl rfl) h

theorem Traces.dropCluster (h : Traces s₀ x) (hx : x.Grounded) (hid : x.determining? id = none) :
    Traces s₀ (x.dropCluster id) :=
  h.unwinds (unwinds_dropCluster x id) hx (clears_removal hid)

theorem Traces.rebuildDependents (h : Traces s₀ x) (hx : x.Grounded) (id : ClusterId) :
    Traces s₀ (x.rebuildDependents id) := by
  have hdrop := h.unwinds (unwinds_dropConsumers x id) hx (clears_consumers x id)
  unfold Decomposition.rebuildDependents
  split
  · dsimp only
    split
    · exact hdrop.congr (fun _ => Iff.rfl) rfl rfl
    · exact hdrop
  · exact h

theorem Traces.reroot (h : Traces s₀ x) (hx : x.Sound) (id : ClusterId) :
    Traces s₀ (x.reroot id) := by
  have hmark : Traces s₀ (x.withRootMark id) :=
    h.congr (fun i => by rw [live_iff, live_iff, cluster?_withRootMark]) (merges_withRootMark x id)
      (withRootMark_fields x id).2.2.2
  have hsound := hx.withRootMark id
  rw [reroot_eq]
  cases x.root.filter (· ≠ id) with
  | none => exact hmark.rebuildDependents hsound.grounded id
  | some old =>
    exact (hmark.rebuildDependents hsound.grounded old).rebuildDependents
      (hsound.rebuildDependents old).1.grounded id

/-! ### A solver in order -/

/-- The dataflow mirrors the decomposition, and every method is consistent. -/
structure Faithful (s : Solver) : Prop where
  mirrors : Mirrors s.decomposition s
  current : s.flow.Current

theorem Mirrors.faithful {g : Dataflow Candidates} (h : Mirrors s.decomposition s)
    (ht : s.flow.Tracked) (hp : s.flow.propagate = (.ok (), g)) :
    Faithful { s with flow := g } := by
  obtain ⟨hf, hc, hm, hk⟩ := h.formed.consistent_propagate ht hp
  exact ⟨h.congr (fun _ => Iff.rfl) rfl rfl rfl rfl hm hk hf, hc⟩

theorem Faithful.sane (h : s.Faithful) : s.flow.Sane := ⟨h.mirrors.formed, h.current.tracked⟩

/-- Nothing has been replayed yet. -/
theorem Mirrors.traces (h : Mirrors s.decomposition s) (hj : s.decomposition.journal = [])
    (d : Decomposition) : Traces { s with decomposition := d } s.decomposition := by
  refine ⟨{ s with decomposition := d }, ?_,
    h.congr (fun _ => Iff.rfl) rfl rfl rfl rfl rfl rfl h.formed⟩
  rw [hj]
  rfl

/-- What a call makes of a decomposition, if it changes one. -/
def Operation.change? (d : Decomposition) :
    Operation → Option (Except DecompositionError Decomposition)
  | .add c => some ((d.add c).map Prod.snd)
  | .remove id => some (d.remove id)
  | .setRoot id => some (d.setRoot id)
  | _ => none

theorem exists_add_eq_ok {c : Cluster} {e : Decomposition}
    (h : (Operation.add c).change? d = some (.ok e)) : ∃ id, d.add c = .ok (id, e) := by
  match hr : d.add c with
  | .error _ =>
    rw [Operation.change?, hr] at h
    cases h
  | .ok (id, d') =>
    rw [Operation.change?, hr] at h
    cases h
    exact ⟨id, rfl⟩

/-- The journal of a change can be replayed. -/
theorem Mirrors.traces_of_change {op : Operation} (h : Mirrors s.decomposition s)
    (hreach : s.decomposition.Reachable) (hop : op.change? s.decomposition = some (.ok d)) :
    Traces { s with decomposition := d.withoutJournal } d := by
  have hsound := hreach.sound
  have htraces := h.traces hreach.journal_eq_nil
  match op, hop with
  | .add c, hop =>
    obtain ⟨id, hadd⟩ := exists_add_eq_ok hop
    obtain ⟨hc, -, rfl⟩ := hsound.add_eq_ok.1 hadd
    refine Traces.process ?_ (hsound.receive hc) rfl
    exact ((htraces _).insertCluster ⟨c, false, false⟩).congr (fun _ => Iff.rfl) rfl rfl
  | .remove id, hop =>
    obtain ⟨-, hdet, rfl⟩ := hsound.remove_eq_ok.1 (Option.some_inj.1 hop)
    exact Traces.process ((htraces _).dropCluster hsound.grounded hdet)
      (hsound.dropCluster hdet).1 rfl
  | .setRoot id, hop =>
    obtain ⟨p, -, rfl⟩ := hsound.setRoot_eq_ok.1 (Option.some_inj.1 hop)
    exact ((htraces _).reroot hsound id).process (hsound.reroot id).1 rfl

/-- A changed decomposition is taken over. -/
theorem Traces.mirrors (h : Traces { s with decomposition := d.withoutJournal } d) :
    ∃ s', (d.journal.forM replay).run.run { s with decomposition := d.withoutJournal } =
      (.ok (), s') ∧ Mirrors s'.decomposition s' := by
  obtain ⟨s', hs, hm⟩ := h
  have hd := keeps_forM d.journal keeps_replay { s with decomposition := d.withoutJournal }
  rw [hs] at hd
  refine ⟨s', hs, ?_⟩
  rw [show s'.decomposition = d.withoutJournal from hd]
  exact hm.congr (fun _ => Iff.rfl) rfl rfl rfl rfl rfl rfl hm.formed

theorem Traces.faithful (h : Traces { s with decomposition := d.withoutJournal } d)
    (hsane : s.flow.Sane) (hr : (restructure d).run.run s = (.ok (), s')) : s'.Faithful := by
  obtain ⟨s₁, g, h₁, hg, rfl⟩ := restructure_eq_ok hr
  obtain ⟨s₂, h₂, hm⟩ := h.mirrors
  obtain rfl : s₁ = s₂ := congrArg Prod.snd (h₁.symm.trans h₂)
  have hs : s₁.flow.Sane := forM_eq_ok (I := fun s => s.flow.Sane)
    (fun _ _ _ _ hs hre => sane_replay hs hre)
    (s := { s with decomposition := d.withoutJournal }) hsane h₁
  exact hm.faithful hs.tracked hg

/-- A cell that serves nothing that a merge computes. -/
theorem Mirrors.undetermined (h : Mirrors x s) (hr : s.Serves c r)
    (hno : ∀ k m, x.merges.find? k = some m → r ≠ .candidates k ∧ r ≠ .cluster m.output) :
    s.flow.determining? c = none := by
  refine Option.eq_none_iff_forall_ne_some.2 fun q hq => ?_
  obtain ⟨i, hi, hout⟩ := h.formed.determining?_eq_some.1 hq
  obtain ⟨k, hk⟩ := h.methods q i hi
  obtain ⟨m, hm, hs | hs⟩ := h.writes hi hk hout
  · exact (hno k m hm).1 (h.allotted.unique c _ _ hr hs)
  · exact (hno k m hm).2 (h.allotted.unique c _ _ hr hs)

/-- A cell that no merge computes changes and the rest follows. -/
theorem Mirrors.set {candidates : Candidates} (h : Mirrors s.decomposition s)
    (hsane : s.flow.Sane) (hfree : s.flow.determining? c = none)
    (hr : (editFlow (fun flow => flow.set c candidates) >>= fun _ => Solver.propagate).run.run s =
      (.ok (), s')) : s'.Faithful := by
  obtain ⟨_, s₁, h₁, hr⟩ := bind_eq_ok.1 hr
  obtain ⟨g, hg, rfl⟩ := editFlow_eq_ok.1 h₁
  obtain ⟨g', hg', rfl⟩ := propagate_eq_ok.1 hr
  obtain ⟨hm, hk⟩ := Dataflow.set_frame hg
  have hset : Mirrors s.decomposition { s with flow := g } :=
    h.congr (fun _ => Iff.rfl) rfl rfl rfl rfl hm hk (hsane.set hfree hg).formed
  exact Mirrors.faithful hset (hsane.set hfree hg).tracked hg'

theorem Mirrors.rebuildSelectors (h : Mirrors s.decomposition s) (hsane : s.flow.Sane)
    (hr : Solver.rebuildSelectors.run.run s = (.ok (), s')) : s'.Faithful := by
  unfold Solver.rebuildSelectors at hr
  rw [Change.run_get_bind] at hr
  obtain ⟨_, s₁, h₁, hr⟩ := bind_eq_ok.1 hr
  obtain ⟨g, hg, rfl⟩ := propagate_eq_ok.1 hr
  obtain ⟨hm, hs⟩ := forM_eq_ok (I := fun s => Mirrors s.decomposition s ∧ s.flow.Sane)
    (fun _ _ _ _ hI hre => ⟨hI.1.rebuildSelector hre, sane_rebuildSelector hI.2 hre⟩) ⟨h, hsane⟩ h₁
  exact hm.faithful hs.tracked hg

/-! ### Runs that give candidates to added clusters only -/

/-- Whether a call gives candidates, if any, to a cluster that no merge computes. -/
def assignsAdded (s : Solver) : Operation → Bool
  | .assign id _ => (s.decomposition.determining? id).isNone
  | _ => true

/-- Whether this holds of calls one after the other. -/
def assignsAllAdded (s : Solver) : List Operation → Bool
  | [] => true
  | op :: rest => s.assignsAdded op && (s.perform op).assignsAllAdded rest

theorem Faithful.perform (h : s.Faithful) (hreach : s.decomposition.Reachable) {op : Operation}
    (ha : s.accepts op = true) (hadded : s.assignsAdded op = true) :
    (s.perform op).Faithful := by
  have hchange : ∀ {op : Operation} {d}, op.change? s.decomposition = some (.ok d) →
      Traces { s with decomposition := d.withoutJournal } d :=
    h.mirrors.traces_of_change hreach
  -- What an accepted call does to the flow depends on its kind.
  cases performs_of_accepts ha with
  | @added c _ d _ hd hr =>
    have hop : (Operation.add c).change? s.decomposition = some (.ok d) := by
      rw [Operation.change?, hd]
      rfl
    exact (hchange hop).faithful h.sane hr
  | @removed id d _ hd hr =>
    have hop : (Operation.remove id).change? s.decomposition = some (.ok d) := congrArg some hd
    exact (hchange hop).faithful h.sane hr
  | @rerooted id d _ hd hr =>
    have hop : (Operation.setRoot id).change? s.decomposition = some (.ok d) := congrArg some hd
    exact (hchange hop).faithful h.sane hr
  | @assigned id c _ _ hc hr =>
    have hserves : s.Serves c (.cluster id) := hc
    -- Only a cluster that was added is assigned to, so no method computes its cell.
    refine h.mirrors.set h.sane (h.mirrors.undetermined hserves fun k m hk =>
      ⟨nofun, fun he => ?_⟩) hr
    have hnone := Option.isNone_iff_eq_none.1 hadded
    exact determining?_eq_none.1 hnone k m hk (CellRole.cluster.inj he).symm
  | @drawn _ p _ hr =>
    have hstart : Mirrors s.decomposition { s with prototypes := p } :=
      h.mirrors.congr (fun _ => Iff.rfl) rfl rfl rfl rfl rfl rfl h.mirrors.formed
    have hserves : s.Serves s.prototypeCell .prototype := rfl
    exact Mirrors.set (s := { s with prototypes := p }) hstart h.sane
      (h.mirrors.undetermined hserves fun k m hk => ⟨nofun, nofun⟩) hr
  | @selected _ q _ hr =>
    have hstart : Mirrors s.decomposition { s with selection := q } :=
      h.mirrors.congr (fun _ => Iff.rfl) rfl rfl rfl rfl rfl rfl h.mirrors.formed
    exact Mirrors.rebuildSelectors (s := { s with selection := q }) hstart h.sane hr
  | idle he => exact he ▸ h

theorem faithful_withConfig (config : SolverConfig) : (withConfig config).Faithful := by
  -- There is just the cell of the prototypes.
  have hserves : ∀ c r, (withConfig config).Serves c r ↔
      r = .prototype ∧ c = (withConfig config).prototypeCell := by
    intro c r
    cases r with
    | prototype => simp [Serves]
    | cluster id =>
      refine iff_of_false (fun hr => ?_) (by simp)
      cases hr
    | candidates k =>
      refine iff_of_false ?_ (by simp)
      rintro ⟨w, hw, -⟩
      cases hw
  refine ⟨⟨fun id => iff_of_false ?_ ?_, fun k => iff_of_false ?_ ?_, fun k m w hk => ?_,
    fun q i hq => ?_, ⟨fun c => ?_, fun c r r' hr hr' => ?_⟩,
    Dataflow.sane_empty.formed.addCell _ _ _⟩, fun q i hq => ?_⟩
  · -- No clusters, merges, wirings or selectors yet.
    intro hl
    cases hl
  · rintro ⟨c, hc⟩
    cases hc
  · rintro ⟨m, hm⟩
    cases hm
  · rintro ⟨w, hw⟩
    cases hw
  · cases hk
  · cases hq
  · simp only [hserves, exists_eq_left]
    exact List.mem_singleton
  · exact ((hserves c r).1 hr).1.trans ((hserves c r').1 hr').1.symm
  · cases hq

/-- After a run in which every call succeeds and candidates are given to added clusters only, the
dataflow mirrors the decomposition and every method is consistent. -/
theorem faithful_run (config : SolverConfig) (ops : List Operation)
    (h : (withConfig config).acceptsAll ops = true)
    (hadded : (withConfig config).assignsAllAdded ops = true) : (run config ops).Faithful := by
  have hstart := faithful_withConfig config
  have hreach : (withConfig config).decomposition.Reachable := .empty
  unfold run
  generalize withConfig config = s at h hadded hstart hreach ⊢
  induction ops generalizing s with
  | nil => exact hstart
  | cons op rest ih =>
    obtain ⟨hop, hrest⟩ := Bool.and_eq_true_iff.1 h
    obtain ⟨hone, hall⟩ := Bool.and_eq_true_iff.1 hadded
    exact ih (s.perform op) hrest hall (hstart.perform hreach hop hone)
      (reachable_perform hreach op)

end Solver

end PlanarSketch
