/-
The dataflow follows the decomposition.

Every edit of the decomposition becomes a few changes of the dataflow.  What
each of them does when it succeeds is read off once.  From this follow two
facts about the cells: keys are used only after they have been handed out, and
an edit about something new touches nothing that was there before.

* `bind_eq_ok`, `wireMerge_eq_ok` and the like: what a change does when it
  succeeds;
* `Tidy`: cells and wirings belong to keys that have been handed out, which
  every edit keeps (`Tidy.replay`);
* `acceptsAll`, `Performs`: calls that succeed, and all that they can do;
* `UpToDate`: the dataflow is tidy and up to date after a run in which every
  call succeeds (`upToDate_run`);
* `Sheltered`: what was there before is as it was, kept by edits about new
  clusters and merges (`Sheltered.replay`).
-/
import Mathlib.Data.List.Forall2
import PlanarSketch.Proofs.Cascade
import PlanarSketch.Proofs.Isolation

namespace PlanarSketch

section OrderedMap

variable {α β : Type} [DecidableEq α] {m : OrderedMap α β} {j k : α} {v w : β}

theorem OrderedMap.find?_insert_cases (h : (m.insert k v).find? j = some w) :
    k = j ∧ v = w ∨ m.find? j = some w := by
  rw [find?_insert] at h
  split at h
  · exact .inl ⟨‹_›, Option.some_inj.1 h⟩
  · exact .inr h

theorem OrderedMap.find?_insert_of_new (h : m.find? k = none) :
    (m.insert k v).find? j = some w ↔ m.find? j = some w ∨ j = k ∧ w = v := by
  rw [find?_insert]
  by_cases he : k = j
  · subst he
    simp [h, eq_comm]
  · simp [he, Ne.symm he]

theorem OrderedMap.find?_erase_eq_some :
    (m.erase k).find? j = some w ↔ m.find? j = some w ∧ j ≠ k := by
  rw [find?_erase]
  by_cases he : k = j
  · simp [he]
  · simp [he, Ne.symm he]

theorem OrderedMap.find?_of_erase (h : (m.erase k).find? j = some w) : m.find? j = some w :=
  (find?_erase_eq_some.1 h).1

end OrderedMap

/-- The edit adds nothing but under keys up to the given ones. -/
def Edit.AddsUpTo (n m : Nat) : Edit → Prop
  | .clusterAdded id => id.serial ≤ n
  | .mergeAdded k => k.serial ≤ m
  | .mergeRemoved _ => True
  | .clusterRemoved _ => True

/-- The edit is about a key beyond the given ones. -/
def Edit.Beyond (n m : Nat) : Edit → Prop
  | .clusterAdded id => n < id.serial
  | .mergeAdded k => m < k.serial
  | .mergeRemoved k => m < k.serial
  | .clusterRemoved id => n < id.serial

namespace Decomposition

variable {d d' x : Decomposition} {c : Cluster} {id : ClusterId}

/-- Keys are only ever handed out, and the journal names none that was not. -/
structure Noted (d d' : Decomposition) : Prop where
  clustersIssued : d.clusters.issued ≤ d'.clusters.issued
  mergesIssued : d.merges.issued ≤ d'.merges.issued
  journal : ∀ e ∈ d'.journal, e.AddsUpTo d'.clusters.issued d'.merges.issued

/-- A journal of removals stays in order while the decomposition grows. -/
theorem PartOf.noted (h : x.PartOf d') (hc : d.clusters.issued = x.clusters.issued)
    (hm : d.merges.issued = x.merges.issued) (hj : ∀ e ∈ x.journal, e.AddsUpTo 0 0) :
    d.Noted d' := by
  refine ⟨hc ▸ h.clustersIssued, hm ▸ h.mergesIssued, fun e he => ?_⟩
  rcases h.journal e he with he | he
  · have hzero := hj e he
    cases e with
    | clusterAdded i => exact Nat.le_trans hzero (Nat.zero_le _)
    | mergeAdded k => exact Nat.le_trans hzero (Nat.zero_le _)
    | mergeRemoved k => trivial
    | clusterRemoved i => trivial
  · cases e with
    | clusterAdded i => exact he.2
    | mergeAdded k => exact he.2
    | mergeRemoved k => trivial
    | clusterRemoved i => trivial

theorem Swept.addsNothing (h : d.Swept x) (hj : d.journal = []) :
    ∀ e ∈ x.journal, e.AddsUpTo 0 0 := by
  intro e he
  rcases h.journal e he with he | he
  · rw [hj] at he
    cases he
  · cases e with
    | clusterAdded i => exact he.elim
    | mergeAdded k => exact he.elim
    | mergeRemoved k => trivial
    | clusterRemoved i => trivial

theorem Reachable.noted_add (h : d.Reachable) (ha : d.add c = .ok (id, d')) : d.Noted d' := by
  obtain ⟨hc, -, rfl⟩ := h.sound.add_eq_ok.1 ha
  have hpart := (partOf_receive d c).trans (h.sound.receive hc).partOf_process
  refine hpart.noted rfl rfl fun e he => ?_
  rw [h.journal_eq_nil] at he
  cases he

theorem Reachable.noted_remove (h : d.Reachable) (hr : d.remove id = .ok d') : d.Noted d' := by
  obtain ⟨-, hdet, rfl⟩ := h.sound.remove_eq_ok.1 hr
  have hs := (unwinds_dropCluster d id).swept
  exact (h.sound.dropCluster hdet).1.partOf_process.noted hs.clustersIssued.symm
    hs.mergesIssued.symm (hs.addsNothing h.journal_eq_nil)

theorem Reachable.noted_setRoot (h : d.Reachable) (hr : d.setRoot id = .ok d') : d.Noted d' := by
  obtain ⟨p, -, rfl⟩ := h.sound.setRoot_eq_ok.1 hr
  have hs := swept_reroot d id
  obtain ⟨hc, hm, -, hj⟩ := withRootMark_fields d id
  exact (h.sound.reroot id).1.partOf_process.noted (hs.clustersIssued.trans hc).symm
    (hs.mergesIssued.trans hm).symm (hs.addsNothing (hj.trans h.journal_eq_nil))

end Decomposition

namespace Solver

variable {α β : Type} {s s' s₀ : Solver} {id : ClusterId} {k : MergeId} {m : Merge}

/-! ### Changes that succeed -/

theorem bind_eq_ok {x : SolverM α} {f : α → SolverM β} {b : β} :
    (x >>= f).run.run s = (.ok b, s') ↔
      ∃ a s₁, x.run.run s = (.ok a, s₁) ∧ (f a).run.run s₁ = (.ok b, s') := by
  rw [Change.run_bind]
  cases h : x.run.run s with
  | mk r s₁ =>
    cases r with
    | error e =>
      constructor
      · intro hr
        cases hr
      · rintro ⟨a, s₂, he, -⟩
        cases he
    | ok a =>
      refine ⟨fun hr => ⟨a, s₁, rfl, hr⟩, ?_⟩
      rintro ⟨a', s₂, he, hf⟩
      cases he
      exact hf

theorem pure_eq_ok {a b : α} : (pure a : SolverM α).run.run s = (.ok b, s') ↔ a = b ∧ s = s' := by
  show (Except.ok a, s) = (.ok b, s') ↔ _
  simp

theorem throw_eq_ok {e : SolverError} {b : α} :
    ¬(throw e : SolverM α).run.run s = (.ok b, s') := by
  show ¬(Except.error e, s) = (.ok b, s')
  simp

theorem modify_eq_ok {f : Solver → Solver} :
    (modify f : SolverM Unit).run.run s = (.ok (), s') ↔ f s = s' := by
  show (Except.ok (), f s) = (.ok (), s') ↔ _
  simp

theorem changeFlow_eq_ok {a : α}
    {change : Dataflow Candidates → Except DataflowError (α × Dataflow Candidates)} :
    (changeFlow change).run.run s = (.ok a, s') ↔
      ∃ g, change s.flow = .ok (a, g) ∧ s' = { s with flow := g } := by
  unfold changeFlow
  rw [Change.run_get_bind]
  cases h : change s.flow with
  | error e =>
    refine ⟨fun hr => absurd hr throw_eq_ok, ?_⟩
    rintro ⟨g, hg, -⟩
    cases hg
  | ok r =>
    show (Except.ok r.1, { s with flow := r.2 }) = (Except.ok a, s') ↔ _
    constructor
    · intro hr
      cases hr
      exact ⟨r.2, rfl, rfl⟩
    · rintro ⟨g, hg, rfl⟩
      cases hg
      rfl

theorem editFlow_eq_ok {change : Dataflow Candidates → Except DataflowError (Dataflow Candidates)} :
    (editFlow change).run.run s = (.ok (), s') ↔
      ∃ g, change s.flow = .ok g ∧ s' = { s with flow := g } := by
  unfold editFlow
  rw [changeFlow_eq_ok]
  refine exists_congr fun g => and_congr_left fun _ => ?_
  cases change s.flow <;> simp [Except.map]

theorem propagate_eq_ok : propagate.run.run s = (.ok (), s') ↔
    ∃ g, s.flow.propagate = (.ok (), g) ∧ s' = { s with flow := g } := by
  unfold propagate
  rw [Change.run_get_bind]
  cases h : s.flow.propagate with
  | mk r g =>
    cases r with
    | error e =>
      refine ⟨fun hr => ?_, ?_⟩
      · cases hr
      · rintro ⟨g', hg, -⟩
        cases hg
    | ok u =>
      show (Except.ok (), { s with flow := g }) = (Except.ok (), s') ↔ _
      constructor
      · intro hr
        cases hr
        exact ⟨g, rfl, rfl⟩
      · rintro ⟨g', hg, rfl⟩
        cases hg
        rfl

theorem cellOf_eq_ok {c : CellId Candidates} :
    (cellOf id).run.run s = (.ok c, s') ↔ s.cells.find? id = some c ∧ s = s' := by
  unfold cellOf
  rw [Change.run_get_bind]
  cases h : s.cells.find? id with
  | none => exact ⟨fun hr => absurd hr throw_eq_ok, fun hr => by cases hr.1⟩
  | some c' =>
    dsimp only
    rw [pure_eq_ok, Option.some_inj]

theorem mapM_cellOf_eq_ok {ids : List ClusterId} {cs : List (CellId Candidates)}
    (h : (ids.mapM cellOf).run.run s = (.ok cs, s')) :
    List.Forall₂ (fun id c => s.cells.find? id = some c) ids cs ∧ s = s' := by
  induction ids generalizing cs s s' with
  | nil =>
    obtain ⟨rfl, rfl⟩ := pure_eq_ok.1 h
    exact ⟨.nil, rfl⟩
  | cons id rest ih =>
    rw [List.mapM_cons] at h
    obtain ⟨c, s₁, h₁, h⟩ := bind_eq_ok.1 h
    obtain ⟨cs', s₂, h₂, h⟩ := bind_eq_ok.1 h
    obtain ⟨hc, rfl⟩ := cellOf_eq_ok.1 h₁
    obtain ⟨hcs, rfl⟩ := ih h₂
    obtain ⟨rfl, rfl⟩ := pure_eq_ok.1 h
    exact ⟨.cons hc hcs, rfl⟩

/-- A selector reads the candidates and writes the cell of the output. -/
theorem installSelector_eq_ok {candidates : CellId Candidates} {select : MethodId Candidates}
    (h : (installSelector m candidates).run.run s = (.ok select, s')) :
    ∃ out g, s.cells.find? m.output = some out ∧
      s.flow.addMethod (selectMethod ("select:" ++ s.clusterText m.output) (s.selectorFor m))
        [candidates, s.prototypeCell] [out] = .ok (select, g) ∧
      s' = { s with flow := g } := by
  obtain ⟨out, s₁, h₁, h⟩ := bind_eq_ok.1 h
  obtain ⟨hout, rfl⟩ := cellOf_eq_ok.1 h₁
  rw [Change.run_get_bind] at h
  obtain ⟨g, hg, rfl⟩ := changeFlow_eq_ok.1 h
  exact ⟨out, g, hout, hg, rfl⟩

theorem addMultiMethod_eq_ok {T : Type} [BEq T] {g : Dataflow (List T)} {method : MultiMethod T}
    {inputs : List (CellId (List T))} {out : CellId (List T)}
    {r : MethodId (List T) × Dataflow (List T)} (h : g.addMultiMethod method inputs [out] = .ok r) :
    g.addMethod method.lift inputs [out] = .ok r := by
  unfold Dataflow.addMultiMethod at h
  dsimp only at h
  split at h
  · cases h
  · split at h
    · cases h
    · exact h

theorem wireCluster_eq_ok (h : (wireCluster id).run.run s = (.ok (), s')) : ∃ label,
    s' = { s with
      flow := (s.flow.addCell label true none).2
      cells := s.cells.insert id s.flow.cells.nextKey } := by
  unfold wireCluster at h
  rw [Change.run_get_bind] at h
  obtain ⟨cell, s₁, h₁, h⟩ := bind_eq_ok.1 h
  obtain ⟨g, hg, rfl⟩ := changeFlow_eq_ok.1 h₁
  cases hg
  exact ⟨_, (modify_eq_ok.1 h).symm⟩

/-- A merge gets a new cell for its candidates, a method that computes them and a selector. -/
theorem wireMerge_eq_ok (h : (wireMerge k m).run.run s = (.ok (), s')) :
    ∃ label inputs merge g₁ out select g₂,
      List.Forall₂ (fun id c => s.cells.find? id = some c) m.inputs inputs ∧
      (s.flow.addCell label true none).2.addMethod (mergeMethod m.rule m.geometry).lift inputs
        [s.flow.cells.nextKey] = .ok (merge, g₁) ∧
      s.cells.find? m.output = some out ∧
      g₁.addMethod (selectMethod ("select:" ++ s.clusterText m.output) (s.selectorFor m))
        [s.flow.cells.nextKey, s.prototypeCell] [out] = .ok (select, g₂) ∧
      s' = { s with
        flow := g₂
        wirings := s.wirings.insert k ⟨s.flow.cells.nextKey, merge, select⟩
        roster := s.roster.seat k } := by
  unfold wireMerge at h
  obtain ⟨inputs, s₁, h₁, h⟩ := bind_eq_ok.1 h
  obtain ⟨hinputs, rfl⟩ := mapM_cellOf_eq_ok h₁
  rw [Change.run_get_bind] at h
  obtain ⟨candidates, s₂, h₂, h⟩ := bind_eq_ok.1 h
  obtain ⟨g, hg, rfl⟩ := changeFlow_eq_ok.1 h₂
  cases hg
  obtain ⟨merge, s₃, h₃, h⟩ := bind_eq_ok.1 h
  obtain ⟨g₁, hg₁, rfl⟩ := changeFlow_eq_ok.1 h₃
  obtain ⟨select, s₄, h₄, h⟩ := bind_eq_ok.1 h
  obtain ⟨out, g₂, hout, hg₂, rfl⟩ := installSelector_eq_ok h₄
  exact ⟨_, inputs, merge, g₁, out, select, g₂, hinputs, addMultiMethod_eq_ok hg₁, hout, hg₂,
    (modify_eq_ok.1 h).symm⟩

theorem unwireMethod_eq_ok {j : MethodId Candidates}
    (h : (unwireMethod j).run.run s = (.ok (), s')) :
    ∃ g, (g = s.flow ∧ j ∉ s.flow.methods.keys ∨ g = s.flow.dropMethod j) ∧
      s' = { s with flow := g } := by
  unfold unwireMethod at h
  rw [Change.run_get_bind] at h
  split at h
  · rename_i hj
    obtain ⟨g, hg, rfl⟩ := editFlow_eq_ok.1 h
    rw [Dataflow.removeMethod, if_pos hj] at hg
    cases hg
    exact ⟨_, .inr rfl, rfl⟩
  · rename_i hj
    obtain ⟨-, rfl⟩ := pure_eq_ok.1 h
    exact ⟨s.flow, .inl ⟨rfl, mt Registry.contains_iff.2 hj⟩, rfl⟩

theorem unwireCell_eq_ok {c : CellId Candidates} (h : (unwireCell c).run.run s = (.ok (), s')) :
    ∃ g, (g = s.flow ∧ c ∉ s.flow.cells.keys ∨ s.flow.removeCell c = .ok g) ∧
      s' = { s with flow := g } := by
  unfold unwireCell at h
  rw [Change.run_get_bind] at h
  split at h
  · obtain ⟨g, hg, rfl⟩ := editFlow_eq_ok.1 h
    exact ⟨g, .inr hg, rfl⟩
  · rename_i hc
    obtain ⟨-, rfl⟩ := pure_eq_ok.1 h
    exact ⟨s.flow, .inl ⟨rfl, mt Registry.contains_iff.2 hc⟩, rfl⟩

theorem unwireMerge_eq_ok (h : (unwireMerge k).run.run s = (.ok (), s')) :
    s' = s ∧ s.wirings.find? k = none ∨ ∃ w g₁ g₂ g₃, s.wirings.find? k = some w ∧
      (g₁ = s.flow ∧ w.selectMethod ∉ s.flow.methods.keys ∨
        g₁ = s.flow.dropMethod w.selectMethod) ∧
      (g₂ = g₁ ∧ w.mergeMethod ∉ g₁.methods.keys ∨ g₂ = g₁.dropMethod w.mergeMethod) ∧
      (g₃ = g₂ ∧ w.candidates ∉ g₂.cells.keys ∨ g₂.removeCell w.candidates = .ok g₃) ∧
      s' = { s with
        flow := g₃, wirings := s.wirings.erase k, roster := s.roster.vacate k } := by
  unfold unwireMerge at h
  rw [Change.run_get_bind] at h
  split at h
  · rename_i hw
    exact .inl ⟨(pure_eq_ok.1 h).2.symm, hw⟩
  · rename_i w hw
    obtain ⟨_, s₁, h₁, h⟩ := bind_eq_ok.1 h
    obtain rfl := modify_eq_ok.1 h₁
    obtain ⟨_, s₂, h₂, h⟩ := bind_eq_ok.1 h
    obtain ⟨g₁, hg₁, rfl⟩ := unwireMethod_eq_ok h₂
    obtain ⟨_, s₃, h₃, h⟩ := bind_eq_ok.1 h
    obtain ⟨g₂, hg₂, rfl⟩ := unwireMethod_eq_ok h₃
    obtain ⟨g₃, hg₃, rfl⟩ := unwireCell_eq_ok h
    exact .inr ⟨w, g₁, g₂, g₃, hw, hg₁, hg₂, hg₃, rfl⟩

theorem unwireCluster_eq_ok (h : (unwireCluster id).run.run s = (.ok (), s')) :
    s' = s ∧ s.cells.find? id = none ∨ ∃ c g, s.cells.find? id = some c ∧
      (g = s.flow ∧ c ∉ s.flow.cells.keys ∨ s.flow.removeCell c = .ok g) ∧
      s' = { s with flow := g, cells := s.cells.erase id } := by
  unfold unwireCluster at h
  rw [Change.run_get_bind] at h
  split at h
  · rename_i hc
    exact .inl ⟨(pure_eq_ok.1 h).2.symm, hc⟩
  · rename_i c hc
    obtain ⟨_, s₁, h₁, h⟩ := bind_eq_ok.1 h
    obtain rfl := modify_eq_ok.1 h₁
    obtain ⟨g, hg, rfl⟩ := unwireCell_eq_ok h
    exact .inr ⟨c, g, hc, hg, rfl⟩

/-- A selector makes room for the new one, if the merge is there with its methods. -/
theorem rebuildSelector_eq_ok (h : (rebuildSelector k).run.run s = (.ok (), s')) :
    s' = s ∧ (s.decomposition.merges.find? k = none ∨ s.wirings.find? k = none) ∨
    ∃ m w out select g, s.decomposition.merges.find? k = some m ∧
      s.wirings.find? k = some w ∧ s.cells.find? m.output = some out ∧
      (s.flow.dropMethod w.selectMethod).addMethod
        (selectMethod ("select:" ++ s.clusterText m.output) (s.selectorFor m))
        [w.candidates, s.prototypeCell] [out] = .ok (select, g) ∧
      s' = { s with
        flow := g, wirings := s.wirings.insert k { w with selectMethod := select } } := by
  unfold rebuildSelector at h
  rw [Change.run_get_bind] at h
  split at h
  · rename_i m w hm hw
    -- Look up the inputs, drop the old method, install the new one, note it.
    obtain ⟨cells, s₀, h₀, h⟩ := bind_eq_ok.1 h
    obtain ⟨-, rfl⟩ := mapM_cellOf_eq_ok h₀
    obtain ⟨_, s₁, h₁, h⟩ := bind_eq_ok.1 h
    obtain ⟨g₁, hg₁, rfl⟩ := editFlow_eq_ok.1 h₁
    unfold Dataflow.removeMethod at hg₁
    split at hg₁
    · cases hg₁
      obtain ⟨select, s₂, h₂, h⟩ := bind_eq_ok.1 h
      obtain ⟨out, g₂, hout, hg₂, rfl⟩ := installSelector_eq_ok h₂
      exact .inr ⟨m, w, out, select, g₂, hm, hw, hout, hg₂, (modify_eq_ok.1 h).symm⟩
    · cases hg₁
  · rename_i hno
    refine .inl ⟨(pure_eq_ok.1 h).2.symm, ?_⟩
    rw [or_iff_not_imp_left, ← ne_eq, Option.ne_none_iff_exists']
    rintro ⟨m, hm⟩
    exact Option.eq_none_iff_forall_ne_some.2 fun w hw => hno m w hm hw

/-- What every call of a list keeps holds after all of them. -/
theorem forM_eq_ok {I : Solver → Prop} {f : α → SolverM Unit} {l : List α}
    (hf : ∀ a ∈ l, ∀ s s', I s → (f a).run.run s = (.ok (), s') → I s') (hi : I s)
    (h : (l.forM f).run.run s = (.ok (), s')) : I s' := by
  induction l generalizing s with
  | nil =>
    obtain ⟨-, rfl⟩ := pure_eq_ok.1 h
    exact hi
  | cons a rest ih =>
    obtain ⟨_, s₁, h₁, h⟩ := bind_eq_ok.1 h
    exact ih (fun b hb => hf b (List.mem_cons_of_mem _ hb)) (hf a List.mem_cons_self s s₁ hi h₁) h

theorem restructure_eq_ok {d : Decomposition} (h : (restructure d).run.run s = (.ok (), s')) :
    ∃ s₁ g, (d.journal.forM replay).run.run { s with decomposition := d.withoutJournal } =
        (.ok (), s₁) ∧
      s₁.flow.propagate = (.ok (), g) ∧ s' = { s₁ with flow := g } := by
  unfold restructure at h
  obtain ⟨_, s₀, h₀, h⟩ := bind_eq_ok.1 h
  obtain rfl := modify_eq_ok.1 h₀
  obtain ⟨_, s₁, h₁, h⟩ := bind_eq_ok.1 h
  obtain ⟨g, hg, rfl⟩ := propagate_eq_ok.1 h
  exact ⟨s₁, g, h₁, hg, rfl⟩

theorem add_eq_ok {c : Cluster} (h : (Solver.add c).run.run s = (.ok id, s')) :
    ∃ d, s.decomposition.add c = .ok (id, d) ∧ (restructure d).run.run s = (.ok (), s') := by
  unfold Solver.add at h
  rw [Change.run_get_bind] at h
  split at h
  · exact absurd h throw_eq_ok
  · rename_i i d hd
    obtain ⟨_, s₁, h₁, h⟩ := bind_eq_ok.1 h
    obtain ⟨rfl, rfl⟩ := pure_eq_ok.1 h
    exact ⟨d, hd, h₁⟩

/-- A change of the decomposition that succeeds is not refused. -/
theorem attempt_eq_ok {r : Except DecompositionError Decomposition}
    (h : (match r with
      | .error e => throw (.decomposition e)
      | .ok d => restructure d : SolverM Unit).run.run s = (.ok (), s')) :
    ∃ d, r = .ok d ∧ (restructure d).run.run s = (.ok (), s') := by
  cases r with
  | error e => exact absurd h throw_eq_ok
  | ok d => exact ⟨d, rfl, h⟩

theorem remove_eq_ok (h : (Solver.remove id).run.run s = (.ok (), s')) :
    ∃ d, s.decomposition.remove id = .ok d ∧ (restructure d).run.run s = (.ok (), s') := by
  unfold Solver.remove at h
  rw [Change.run_get_bind] at h
  exact attempt_eq_ok h

/-! ### Cells and wirings of keys that have been handed out -/

/-- The cells and wirings are those of keys up to `n` and `m`, and the cells exist. -/
structure Tidy (n m : Nat) (s : Solver) : Prop where
  wired : s.flow.Wired
  cells : ∀ id c, s.cells.find? id = some c → id.serial ≤ n ∧ c.serial ≤ s.flow.cells.issued
  wirings : ∀ k w, s.wirings.find? k = some w → k.serial ≤ m

variable {n n' b b' : Nat} {g : Dataflow Candidates}

theorem Tidy.mono (h : Tidy n b s) (hn : n ≤ n') (hb : b ≤ b') : Tidy n' b' s where
  wired := h.wired
  cells := fun id c hc => ⟨Nat.le_trans (h.cells id c hc).1 hn, (h.cells id c hc).2⟩
  wirings := fun k w hw => Nat.le_trans (h.wirings k w hw) hb

theorem Tidy.withFlow (h : Tidy n b s) (hw : g.Wired)
    (hi : s.flow.cells.issued ≤ g.cells.issued) : Tidy n b { s with flow := g } where
  wired := hw
  cells := fun id c hc => ⟨(h.cells id c hc).1, Nat.le_trans (h.cells id c hc).2 hi⟩
  wirings := h.wirings

theorem Tidy.shrunk (h : Tidy n b s) (hs : s.flow.Shrunk g) : Tidy n b { s with flow := g } :=
  h.withFlow (h.wired.shrunk hs) (Nat.le_of_eq hs.issued.symm)

theorem shrunk_unwireMethod {j : MethodId Candidates} {g' : Dataflow Candidates}
    (h : g' = g ∧ j ∉ g.methods.keys ∨ g' = g.dropMethod j) : g.Shrunk g' := by
  rcases h with ⟨rfl, -⟩ | rfl
  · exact .refl _
  · exact g.shrunk_dropMethod j

theorem shrunk_unwireCell {c : CellId Candidates} {g' : Dataflow Candidates}
    (h : g' = g ∧ c ∉ g.cells.keys ∨ g.removeCell c = .ok g') : g.Shrunk g' := by
  rcases h with ⟨rfl, -⟩ | h
  · exact .refl _
  · exact Dataflow.shrunk_removeCell h

theorem Tidy.replay {e : Edit} (h : Tidy n b s) (he : e.AddsUpTo n b)
    (hr : (replay e).run.run s = (.ok (), s')) : Tidy n b s' := by
  -- What an edit adds has a key within the bounds; removals leave a part of what was there.
  cases e with
  | clusterAdded id =>
    obtain ⟨label, rfl⟩ := wireCluster_eq_ok hr
    refine ⟨h.wired.addCell label true none, fun i c hc => ?_, h.wirings⟩
    rcases OrderedMap.find?_insert_cases hc with ⟨rfl, rfl⟩ | hc
    · exact ⟨he, Nat.le_refl _⟩
    · exact ⟨(h.cells i c hc).1, Nat.le_succ_of_le (h.cells i c hc).2⟩
  | mergeAdded k =>
    simp only [Solver.replay] at hr
    rw [Change.run_get_bind] at hr
    split at hr
    · obtain ⟨label, inputs, merge, g₁, out, select, g₂, -, h₁, -, h₂, rfl⟩ := wireMerge_eq_ok hr
      obtain ⟨hw₁, hi₁⟩ := (h.wired.addCell label true none).addMethod h₁
      obtain ⟨hw₂, hi₂⟩ := hw₁.addMethod h₂
      have hi : s.flow.cells.issued ≤ g₂.cells.issued := by
        rw [hi₂, hi₁]
        exact Nat.le_succ _
      obtain ⟨-, hcells, -⟩ := h.withFlow hw₂ hi
      refine ⟨hw₂, hcells, fun j w hj => ?_⟩
      rcases OrderedMap.find?_insert_cases hj with ⟨rfl, -⟩ | hj
      · exact he
      · exact h.wirings j w hj
    · obtain ⟨-, rfl⟩ := pure_eq_ok.1 hr
      exact h
  | mergeRemoved k =>
    rcases unwireMerge_eq_ok hr with ⟨rfl, -⟩ | ⟨w, g₁, g₂, g₃, -, h₁, h₂, h₃, rfl⟩
    · exact h
    · have hs := ((shrunk_unwireMethod h₁).trans (shrunk_unwireMethod h₂)).trans
        (shrunk_unwireCell h₃)
      obtain ⟨hw, hcells, -⟩ := h.shrunk hs
      exact ⟨hw, hcells, fun j w hj => h.wirings j w (OrderedMap.find?_of_erase hj)⟩
  | clusterRemoved id =>
    rcases unwireCluster_eq_ok hr with ⟨rfl, -⟩ | ⟨c, g, -, hg, rfl⟩
    · exact h
    · obtain ⟨hw, hcells, hwirings⟩ := h.shrunk (shrunk_unwireCell hg)
      exact ⟨hw, fun i c hc => hcells i c (OrderedMap.find?_of_erase hc), hwirings⟩

/-- Taking over a decomposition keeps the cells and wirings tidy if its journal does. -/
theorem Tidy.restructure {d : Decomposition} (h : Tidy n b s)
    (hj : ∀ e ∈ d.journal, e.AddsUpTo n b) (hr : (restructure d).run.run s = (.ok (), s')) :
    Tidy n b s' ∧ s'.flow.Quiet := by
  obtain ⟨s₁, g, h₁, hg, rfl⟩ := restructure_eq_ok hr
  have hstart : Tidy n b { s with decomposition := d.withoutJournal } :=
    ⟨h.wired, h.cells, h.wirings⟩
  have htidy := forM_eq_ok (I := Tidy n b) (fun e he _ _ ht hre => ht.replay (hj e he) hre) hstart
    h₁
  exact ⟨htidy.shrunk (Dataflow.shrunk_propagate hg), Dataflow.quiet_propagate hg⟩

theorem Tidy.propagate (h : Tidy n b s) (hr : propagate.run.run s = (.ok (), s')) :
    Tidy n b s' ∧ s'.flow.Quiet := by
  obtain ⟨g, hg, rfl⟩ := propagate_eq_ok.1 hr
  exact ⟨h.shrunk (Dataflow.shrunk_propagate hg), Dataflow.quiet_propagate hg⟩

/-- A new selector takes the place of the old one. -/
theorem Tidy.rebuildSelector (h : Tidy n b s)
    (hr : (rebuildSelector k).run.run s = (.ok (), s')) : Tidy n b s' := by
  rcases rebuildSelector_eq_ok hr with ⟨rfl, -⟩ | ⟨m, w, out, select, g, -, hw, -, hg, rfl⟩
  · exact h
  · have htidy := h.shrunk (s.flow.shrunk_dropMethod w.selectMethod)
    obtain ⟨hwired, hi⟩ := htidy.wired.addMethod hg
    obtain ⟨-, hcells, -⟩ := htidy.withFlow hwired (Nat.le_of_eq hi.symm)
    refine ⟨hwired, hcells, fun j w' hj => ?_⟩
    rcases OrderedMap.find?_insert_cases hj with ⟨rfl, -⟩ | hj
    · exact h.wirings k w hw
    · exact h.wirings j w' hj

theorem Tidy.rebuildSelectors (h : Tidy n b s)
    (hr : rebuildSelectors.run.run s = (.ok (), s')) : Tidy n b s' ∧ s'.flow.Quiet := by
  unfold Solver.rebuildSelectors at hr
  rw [Change.run_get_bind] at hr
  obtain ⟨_, s₁, h₁, hr⟩ := bind_eq_ok.1 hr
  have htidy := forM_eq_ok (I := Tidy n b) (fun _ _ _ _ ht hre => ht.rebuildSelector hre) h h₁
  exact htidy.propagate hr

/-- The value of a cell changes and the rest follows. -/
theorem Tidy.set {c : CellId Candidates} {candidates : Candidates} (h : Tidy n b s)
    (hr : (editFlow (fun flow => flow.set c candidates) >>= fun _ => Solver.propagate).run.run s =
      (.ok (), s')) : Tidy n b s' ∧ s'.flow.Quiet := by
  obtain ⟨_, s₁, h₁, hr⟩ := bind_eq_ok.1 hr
  obtain ⟨g, hg, rfl⟩ := editFlow_eq_ok.1 h₁
  exact (h.shrunk (Dataflow.shrunk_set hg)).propagate hr

/-! ### Runs in which every call succeeds -/

/-- Whether a call succeeds. -/
def accepts (s : Solver) : Operation → Bool
  | .add c => ((Solver.add c).run.run s).1.toOption.isSome
  | .remove id => ((Solver.remove id).run.run s).1.toOption.isSome
  | .setRoot id => ((Solver.setRoot id).run.run s).1.toOption.isSome
  | .assign id candidates => ((Solver.assign id candidates).run.run s).1.toOption.isSome
  | .setPrototype name p => ((Solver.setPrototype name p).run.run s).1.toOption.isSome
  | .clearPrototype name => ((Solver.clearPrototype name).run.run s).1.toOption.isSome
  | .addSelection q => ((Solver.addSelection q).run.run s).1.toOption.isSome
  | .removeSelection q => ((Solver.removeSelection q).run.run s).1.toOption.isSome

/-- Whether calls succeed one after the other. -/
def acceptsAll (s : Solver) : List Operation → Bool
  | [] => true
  | op :: rest => s.accepts op && (s.perform op).acceptsAll rest

theorem eq_ok {x : SolverM α} {a : α} (h : (x.run.run s).1.toOption = some a) :
    x.run.run s = (.ok a, (x.run.run s).2) := by
  cases hx : x.run.run s with
  | mk r s' =>
    rw [hx] at h
    cases r with
    | error e => cases h
    | ok a' =>
      obtain rfl := Option.some_inj.1 h
      rfl

theorem exists_ok {x : SolverM α} (h : (x.run.run s).1.toOption.isSome = true) :
    ∃ a, x.run.run s = (.ok a, (x.run.run s).2) := by
  obtain ⟨a, ha⟩ := Option.isSome_iff_exists.1 h
  exact ⟨a, eq_ok ha⟩

/-- What a call that succeeds does: it takes over a changed decomposition, gives a cell candidates
and brings the rest up to date, rebuilds the selectors, or nothing. -/
inductive Performs (s : Solver) : Operation → Solver → Prop
  | added {c : Cluster} {id : ClusterId} {d : Decomposition} {s' : Solver}
      (hd : s.decomposition.add c = .ok (id, d)) (hr : (restructure d).run.run s = (.ok (), s')) :
      Performs s (.add c) s'
  | removed {id : ClusterId} {d : Decomposition} {s' : Solver}
      (hd : s.decomposition.remove id = .ok d) (hr : (restructure d).run.run s = (.ok (), s')) :
      Performs s (.remove id) s'
  | rerooted {id : ClusterId} {d : Decomposition} {s' : Solver}
      (hd : s.decomposition.setRoot id = .ok d) (hr : (restructure d).run.run s = (.ok (), s')) :
      Performs s (.setRoot id) s'
  | assigned {id : ClusterId} {c : CellId Candidates} {candidates : Candidates} {s' : Solver}
      (hc : s.cells.find? id = some c)
      (hr : (editFlow (fun flow => flow.set c candidates) >>= fun _ =>
        Solver.propagate).run.run s = (.ok (), s')) :
      Performs s (.assign id candidates) s'
  | drawn {op : Operation} {p : OrderedMap PointName Vec} {s' : Solver}
      (hr : (editFlow (fun flow => flow.set s.prototypeCell [.ofPoints p]) >>= fun _ =>
        Solver.propagate).run.run { s with prototypes := p } = (.ok (), s')) :
      Performs s op s'
  | selected {op : Operation} {q : OrderedSet SelectionConstraint} {s' : Solver}
      (hr : rebuildSelectors.run.run { s with selection := q } = (.ok (), s')) :
      Performs s op s'
  | idle {op : Operation} {s' : Solver} (h : s = s') : Performs s op s'

variable {op : Operation}

theorem Performs.of_refreshPrototype
    {f : OrderedMap PointName Vec → OrderedMap PointName Vec}
    (h : ((modify fun s => { s with prototypes := f s.prototypes }) >>= fun _ =>
      refreshPrototype : SolverM Unit).run.run s = (.ok (), s')) : Performs s op s' := by
  obtain ⟨_, s₁, h₁, h⟩ := bind_eq_ok.1 h
  obtain rfl := modify_eq_ok.1 h₁
  unfold refreshPrototype at h
  rw [Change.run_get_bind] at h
  exact .drawn h

theorem Performs.of_rebuildSelectors
    {f : OrderedSet SelectionConstraint → OrderedSet SelectionConstraint} {a r : Bool}
    (h : ((modify fun s => { s with selection := f s.selection }) >>= fun _ =>
      rebuildSelectors >>= fun _ => pure a : SolverM Bool).run.run s = (.ok r, s')) :
    Performs s op s' := by
  obtain ⟨_, s₁, h₁, h⟩ := bind_eq_ok.1 h
  obtain rfl := modify_eq_ok.1 h₁
  obtain ⟨_, s₂, h₂, h⟩ := bind_eq_ok.1 h
  obtain ⟨-, rfl⟩ := pure_eq_ok.1 h
  exact .selected h₂

theorem Performs.of_clearPrototype {name : PointName}
    (h : (clearPrototype name).run.run s = (.ok (), s')) : Performs s op s' := by
  unfold clearPrototype at h
  rw [Change.run_get_bind] at h
  split at h
  · exact .of_refreshPrototype (f := fun m => m.erase name) h
  · exact .idle (pure_eq_ok.1 h).2

theorem Performs.of_addSelection {q : SelectionConstraint} {r : Bool}
    (h : (addSelection q).run.run s = (.ok r, s')) : Performs s op s' := by
  unfold addSelection at h
  rw [Change.run_get_bind] at h
  split at h
  · exact .idle (pure_eq_ok.1 h).2
  · exact .of_rebuildSelectors (f := fun p => p.insert q) h

theorem Performs.of_removeSelection {q : SelectionConstraint} {r : Bool}
    (h : (removeSelection q).run.run s = (.ok r, s')) : Performs s op s' := by
  unfold removeSelection at h
  rw [Change.run_get_bind] at h
  split at h
  · exact .of_rebuildSelectors (f := fun p => p.erase q) h
  · exact .idle (pure_eq_ok.1 h).2

theorem performs_of_accepts (h : s.accepts op = true) : Performs s op (s.perform op) := by
  -- An accepted call has run to its end, so every step on the way is known.
  cases op with
  | add c =>
    obtain ⟨id, hr⟩ := exists_ok h
    obtain ⟨d, hd, hr⟩ := add_eq_ok hr
    exact .added hd hr
  | remove id =>
    obtain ⟨_, hr⟩ := exists_ok h
    obtain ⟨d, hd, hr⟩ := remove_eq_ok hr
    exact .removed hd hr
  | setRoot id =>
    obtain ⟨_, hr⟩ := exists_ok h
    obtain ⟨d, hd, hr⟩ := attempt_eq_ok hr
    exact .rerooted hd hr
  | assign id candidates =>
    obtain ⟨_, hr⟩ := exists_ok h
    obtain ⟨c, s₁, h₁, hr⟩ := bind_eq_ok.1 hr
    obtain ⟨hc, rfl⟩ := cellOf_eq_ok.1 h₁
    exact .assigned hc hr
  | setPrototype name p =>
    obtain ⟨_, hr⟩ := exists_ok h
    exact .of_refreshPrototype (f := fun m => m.insert name p) hr
  | clearPrototype name =>
    obtain ⟨_, hr⟩ := exists_ok h
    exact .of_clearPrototype hr
  | addSelection q =>
    obtain ⟨r, hr⟩ := exists_ok h
    exact .of_addSelection hr
  | removeSelection q =>
    obtain ⟨r, hr⟩ := exists_ok h
    exact .of_removeSelection hr

/-- The dataflow is up to date and holds nothing of keys that have not been handed out. -/
def UpToDate (s : Solver) : Prop :=
  Tidy s.decomposition.clusters.issued s.decomposition.merges.issued s ∧ s.flow.Quiet

/-- What a call leaves that has changed the decomposition. -/
theorem UpToDate.restructure {d : Decomposition} (h : s.UpToDate) (hn : s.decomposition.Noted d)
    (hr : (restructure d).run.run s = (.ok (), s')) : s'.UpToDate := by
  have htidy := (h.1.mono hn.clustersIssued hn.mergesIssued).restructure hn.journal hr
  have hd := decomposition_restructure d s
  rw [hr] at hd
  unfold UpToDate
  rw [hd]
  exact htidy

/-- What a call leaves that keeps the decomposition. -/
theorem UpToDate.keeps {x : SolverM α} {a : α} (hx : Keeps x)
    (hr : x.run.run s = (.ok a, s')) (h : Tidy s.decomposition.clusters.issued
      s.decomposition.merges.issued s' ∧ s'.flow.Quiet) : s'.UpToDate := by
  have hd := hx s
  rw [hr] at hd
  unfold UpToDate
  rw [hd]
  exact h

theorem UpToDate.set {c : CellId Candidates} {candidates : Candidates} (h : s.UpToDate)
    (hr : (editFlow (fun flow => flow.set c candidates) >>= fun _ => Solver.propagate).run.run s =
      (.ok (), s')) : s'.UpToDate :=
  UpToDate.keeps ((keeps_changeFlow _).bind fun _ => keeps_propagate) hr (h.1.set hr)

/-- Every call that succeeds leaves the dataflow up to date. -/
theorem UpToDate.perform (h : s.UpToDate) (hreach : s.decomposition.Reachable) {op : Operation}
    (ha : s.accepts op = true) : (s.perform op).UpToDate := by
  cases performs_of_accepts ha with
  | added hd hr => exact h.restructure (hreach.noted_add hd) hr
  | removed hd hr => exact h.restructure (hreach.noted_remove hd) hr
  | rerooted hd hr => exact h.restructure (hreach.noted_setRoot hd) hr
  | assigned hc hr => exact h.set hr
  | @drawn _ p _ hr =>
    -- Neither the prototypes nor the constraints on solutions play a part in which cells there are.
    have hstart : UpToDate { s with prototypes := p } :=
      ⟨⟨h.1.wired, h.1.cells, h.1.wirings⟩, h.2⟩
    exact hstart.set hr
  | @selected _ q s' hr =>
    have hstart : UpToDate { s with selection := q } :=
      ⟨⟨h.1.wired, h.1.cells, h.1.wirings⟩, h.2⟩
    exact UpToDate.keeps keeps_rebuildSelectors hr (hstart.1.rebuildSelectors hr)
  | idle he => exact he ▸ h

/-- After a run in which every call succeeds the dataflow is up to date. -/
theorem upToDate_run (config : SolverConfig) (ops : List Operation)
    (h : (withConfig config).acceptsAll ops = true) : (run config ops).UpToDate := by
  have hstart : (withConfig config).UpToDate := by
    refine ⟨⟨fun m i hi => ?_, fun id c hc => ?_, fun k w hw => ?_⟩, fun c => ?_, fun m => ?_⟩
    · cases hi
    · cases hc
    · cases hw
    · exact OrderedSet.not_mem_empty c
    · exact OrderedSet.not_mem_empty m
  have hreach : (withConfig config).decomposition.Reachable := .empty
  unfold run
  generalize withConfig config = s at h hstart hreach ⊢
  induction ops generalizing s with
  | nil => exact hstart
  | cons op rest ih =>
    obtain ⟨hop, hrest⟩ := Bool.and_eq_true_iff.1 h
    exact ih (s.perform op) hrest (hstart.perform hreach hop) (reachable_perform hreach op)

/-! ### What was there before -/

/-- What `s₀` has is in `s` as it was, and nothing that is new in `s` reaches it. -/
structure Sheltered (s₀ s : Solver) : Prop where
  apart : s₀.flow.Apart s.flow
  cells : ∀ id, id.serial ≤ s₀.decomposition.clusters.issued →
    s.cells.find? id = s₀.cells.find? id
  newCells : ∀ id c, s.cells.find? id = some c → s₀.decomposition.clusters.issued < id.serial →
    s₀.flow.cells.issued < c.serial
  newWirings : ∀ k w, s.wirings.find? k = some w → s₀.decomposition.merges.issued < k.serial →
    s₀.flow.cells.issued < w.candidates.serial ∧
      s₀.flow.methods.issued < w.mergeMethod.serial ∧ s₀.flow.methods.issued < w.selectMethod.serial
  outputs : ∀ k m, s.decomposition.merges.find? k = some m →
    s₀.decomposition.merges.issued < k.serial →
    s₀.decomposition.clusters.issued < m.output.serial

theorem UpToDate.sheltered (h : s.UpToDate) : s.Sheltered s where
  apart := h.1.wired.apart h.2
  cells := fun _ _ => rfl
  newCells := fun id c hc hlt => absurd (h.1.cells id c hc).1 (Nat.not_le.2 hlt)
  newWirings := fun k w hw hlt => absurd (h.1.wirings k w hw) (Nat.not_le.2 hlt)
  outputs := fun _ _ hk hlt => absurd (Registry.serial_le_issued hk) (Nat.not_le.2 hlt)

theorem Sheltered.withFlow (h : s₀.Sheltered s) (hg : s₀.flow.Apart g) :
    s₀.Sheltered { s with flow := g } :=
  ⟨hg, h.cells, h.newCells, h.newWirings, h.outputs⟩

theorem apart_unwireMethod {j : MethodId Candidates} {g g' : Dataflow Candidates}
    (h : s₀.flow.Apart g) (hj : s₀.flow.methods.issued < j.serial)
    (hg : g' = g ∧ j ∉ g.methods.keys ∨ g' = g.dropMethod j) : s₀.flow.Apart g' := by
  rcases hg with ⟨rfl, -⟩ | rfl
  · exact h
  · exact h.dropMethod hj

theorem apart_unwireCell {c : CellId Candidates} {g g' : Dataflow Candidates}
    (h : s₀.flow.Apart g) (hc : s₀.flow.cells.issued < c.serial)
    (hg : g' = g ∧ c ∉ g.cells.keys ∨ g.removeCell c = .ok g') : s₀.flow.Apart g' := by
  rcases hg with ⟨rfl, -⟩ | hg
  · exact h
  · exact h.removeCell hc hg

/-- A new merge is wired between new cells. -/
theorem Sheltered.wireMerge (h : s₀.Sheltered s) (hk : s₀.decomposition.merges.issued < k.serial)
    (hm : s.decomposition.merges.find? k = some m)
    (hr : (wireMerge k m).run.run s = (.ok (), s')) : s₀.Sheltered s' := by
  obtain ⟨label, inputs, merge, g₁, out, select, g₂, -, h₁, hout, h₂, rfl⟩ := wireMerge_eq_ok hr
  obtain ⟨ha, hcell⟩ := h.apart.addCell label true none
  have hnew := h.newCells m.output out hout (h.outputs k m hm hk)
  obtain ⟨ha₁, hmerge⟩ := ha.addMethod (fun c hc => List.mem_singleton.1 hc ▸ hcell) h₁
  obtain ⟨ha₂, hselect⟩ := ha₁.addMethod (fun c hc => List.mem_singleton.1 hc ▸ hnew) h₂
  refine ⟨ha₂, h.cells, h.newCells, fun j w hj hlt => ?_, h.outputs⟩
  rcases OrderedMap.find?_insert_cases hj with ⟨-, rfl⟩ | hj
  · exact ⟨hcell, hmerge, hselect⟩
  · exact h.newWirings j w hj hlt

/-- An edit about something new leaves what was there before alone. -/
theorem Sheltered.replay {e : Edit} (h : s₀.Sheltered s)
    (he : e.Beyond s₀.decomposition.clusters.issued s₀.decomposition.merges.issued)
    (hr : (replay e).run.run s = (.ok (), s')) : s₀.Sheltered s' := by
  -- What an edit writes has a key beyond the bound, so the old keys are not touched.
  cases e with
  | clusterAdded id =>
    obtain ⟨label, rfl⟩ := wireCluster_eq_ok hr
    obtain ⟨ha, hcell⟩ := h.apart.addCell label true none
    refine ⟨ha, fun i hi => ?_, fun i c hc hlt => ?_, h.newWirings, h.outputs⟩
    · rw [OrderedMap.find?_insert, if_neg, h.cells i hi]
      rintro rfl
      exact Nat.not_lt.2 hi he
    · rcases OrderedMap.find?_insert_cases hc with ⟨-, rfl⟩ | hc
      · exact hcell
      · exact h.newCells i c hc hlt
  | mergeAdded k =>
    simp only [Solver.replay] at hr
    rw [Change.run_get_bind] at hr
    split at hr
    · rename_i m hm
      exact h.wireMerge he hm hr
    · obtain ⟨-, rfl⟩ := pure_eq_ok.1 hr
      exact h
  | mergeRemoved k =>
    rcases unwireMerge_eq_ok hr with ⟨rfl, -⟩ | ⟨w, g₁, g₂, g₃, hw, h₁, h₂, h₃, rfl⟩
    · exact h
    · -- The wiring of a new merge consists of new cells and methods.
      obtain ⟨hcell, hmerge, hselect⟩ := h.newWirings k w hw he
      have ha₁ := apart_unwireMethod h.apart hselect h₁
      have ha₂ := apart_unwireMethod ha₁ hmerge h₂
      exact ⟨apart_unwireCell ha₂ hcell h₃, h.cells, h.newCells,
        fun j w hj => h.newWirings j w (OrderedMap.find?_of_erase hj), h.outputs⟩
  | clusterRemoved id =>
    rcases unwireCluster_eq_ok hr with ⟨rfl, -⟩ | ⟨c, g, hc, hg, rfl⟩
    · exact h
    · refine ⟨apart_unwireCell h.apart (h.newCells id c hc he) hg, fun i hi => ?_,
        fun i c hc => h.newCells i c (OrderedMap.find?_of_erase hc), h.newWirings, h.outputs⟩
      rw [OrderedMap.find?_erase, if_neg, h.cells i hi]
      rintro rfl
      exact Nat.not_lt.2 hi he

/-- Taking over a decomposition whose journal is about new clusters and merges leaves what was there
before alone. -/
theorem Sheltered.restructure {d : Decomposition} (h : s₀.Sheltered s)
    (hout : ∀ k m, d.merges.find? k = some m → s₀.decomposition.merges.issued < k.serial →
      s₀.decomposition.clusters.issued < m.output.serial)
    (hj : ∀ e ∈ d.journal,
      e.Beyond s₀.decomposition.clusters.issued s₀.decomposition.merges.issued)
    (hr : (restructure d).run.run s = (.ok (), s')) : s₀.Sheltered s' := by
  obtain ⟨s₁, g, h₁, hg, rfl⟩ := restructure_eq_ok hr
  have hstart : s₀.Sheltered { s with decomposition := d.withoutJournal } :=
    ⟨h.apart, h.cells, h.newCells, h.newWirings, hout⟩
  have hs := forM_eq_ok (I := s₀.Sheltered) (fun e he _ _ hs hre => hs.replay (hj e he) hre) hstart
    h₁
  exact hs.withFlow (hs.apart.propagate hg)

/-- The candidates of the clusters that were there before are what they were. -/
theorem Sheltered.candidates?_eq (h : s₀.Sheltered s) (h₀ : s₀.UpToDate)
    (hid : s₀.decomposition.Live id) : s.candidates? id = s₀.candidates? id := by
  unfold candidates?
  rw [h.cells id (Decomposition.serial_le_of_live hid)]
  cases hc : s₀.cells.find? id with
  | none => rfl
  | some c =>
    show (s.flow.cells.find? c).bind Cell.value = (s₀.flow.cells.find? c).bind Cell.value
    rw [h.apart.cells c (h₀.1.cells id c hc).2]

end Solver

end PlanarSketch
