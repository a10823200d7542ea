/-
Runs of a solver.

The operations of a solver may fail after they have changed something, so a
run goes on from the state that an operation leaves, whatever it returns.  As
far as clusters and merges go, that state is the old one or what adding a
cluster, removing one or changing the root makes of it: the dataflow beside
the decomposition never touches it.

* `Decomposition.processStep_cases`, `processWithin_induction`: what one step
  of the search does, and what holds after any number of steps;
* `Decomposition.Reachable`: the decompositions that the three structural
  operations lead to, each of them sound (`Reachable.sound`), and what holds of
  all of them (`Reachable.induction_of_changes`) and of their merges
  (`Reachable.induction_of_transfer`);
* `Solver.Operation`, `Solver.run`: runs of all operations;
* `Solver.reachable_run`: every run has a reachable decomposition.
-/
import PlanarSketch.Proofs.Checks
import PlanarSketch.Proofs.Undo
import PlanarSketch.Solver.Operations

namespace PlanarSketch

namespace Decomposition

variable {d d' : Decomposition} {id : ClusterId}

/-! ### The search -/

theorem Sound.withWorklist (h : d.Sound) (w : List ClusterId) :
    { d with worklist := w }.Sound :=
  h.congr (fun _ => rfl) rfl rfl rfl

/-- One step of the search finds nothing, or it carries out a plan and puts the output on the
worklist, and the searched cluster again if it is still on the top level. -/
theorem Sound.processStep_cases (h : d.Sound) (id : ClusterId) :
    (d.processStep id = d ∧ (id ∈ d.topLevel → d.search id = none)) ∨
      ∃ ps plan out d', Finding d ps plan ∧ d.Carried plan out d' ∧
        d.processStep id =
          { d' with worklist := d.worklist ++ out :: if id ∈ d'.topLevel then [id] else [] } := by
  unfold processStep
  split
  · rename_i htop
    rw [isTopLevel_iff] at htop
    cases hs : d.search id with
    | none => exact .inl ⟨rfl, fun _ => rfl⟩
    | some plan =>
      obtain ⟨ps, hf⟩ := finding_of_search htop hs
      have hc := h.carryOut (hf.sound h.grounded)
      refine .inr ⟨ps, plan, _, _, hf, hc, ?_⟩
      -- Carrying out leaves the worklist alone, so only the two enqueued clusters are added.
      obtain ⟨new, hgrown, -⟩ := hc.grown
      have hiff : ((d.carryOut plan).2.enqueue (d.carryOut plan).1).isTopLevel id = true ↔
          id ∈ (d.carryOut plan).2.topLevel := isTopLevel_iff
      dsimp only
      by_cases hid : id ∈ (d.carryOut plan).2.topLevel
      · rw [if_pos (hiff.2 hid), if_pos hid]
        simp only [enqueue, hgrown.worklist, List.append_assoc, List.singleton_append]
      · rw [if_neg (mt hiff.1 hid), if_neg hid]
        simp only [enqueue, hgrown.worklist]
  · rename_i htop
    exact .inl ⟨rfl, fun hid => absurd (isTopLevel_iff.2 hid) htop⟩

/-- What every step of the search keeps holds after any number of steps. -/
theorem processWithin_induction {P : Decomposition → Prop}
    (hstep : ∀ d id rest, d.worklist = id :: rest → P d →
      P ({ d with worklist := rest }.processStep id))
    (steps : Nat) (h : P d) : P (processWithin steps d) := by
  induction steps generalizing d with
  | zero => exact h
  | succ steps ih =>
    unfold processWithin
    split
    · exact h
    · rename_i id rest hw
      exact ih (hstep d id rest hw h)

/-- A property of sound decompositions that carrying out what a search finds keeps is kept by the
whole search. -/
theorem Sound.process_of_search {P : Decomposition → Prop}
    (hw : ∀ d w, P d → P { d with worklist := w })
    (hc : ∀ d id plan, d.Sound → P d → id ∈ d.topLevel → d.search id = some plan →
      P (d.carryOut plan).2)
    (h : d.Sound) (hp : P d) : d.process.Sound ∧ P d.process := by
  refine processWithin_induction (P := fun d => d.Sound ∧ P d) (fun d id rest _ hd => ?_)
    d.searchBudget ⟨h, hp⟩
  have hsound := hd.1.withWorklist rest
  have hprop := hw d rest hd.2
  unfold processStep
  split
  · rename_i htop
    rw [isTopLevel_iff] at htop
    split
    · exact ⟨hsound, hprop⟩
    · rename_i plan hs
      obtain ⟨ps, hf⟩ := finding_of_search htop hs
      have hcar := hsound.carryOut (hf.sound hsound.grounded)
      have hnext := hc _ id plan hsound hprop htop hs
      -- Only the worklist changes after the plan has been carried out.
      dsimp only
      split
      · exact ⟨hcar.sound.withWorklist _, hw _ _ (hw _ _ hnext)⟩
      · exact ⟨hcar.sound.withWorklist _, hw _ _ hnext⟩
  · exact ⟨hsound, hprop⟩

/-- A property of sound decompositions that carrying out a finding keeps is kept by the search. -/
theorem Sound.process_of_carried {P : Decomposition → Prop}
    (hw : ∀ d w, P d → P { d with worklist := w })
    (hc : ∀ d ps plan out d', d.Sound → P d → Finding d ps plan → d.Carried plan out d' → P d')
    (h : d.Sound) (hp : P d) : d.process.Sound ∧ P d.process := by
  refine h.process_of_search hw (fun d id plan hd hP htop hs => ?_) hp
  obtain ⟨ps, hf⟩ := finding_of_search htop hs
  exact hc d ps plan _ _ hd hP hf (hd.carryOut (hf.sound hd.grounded))

theorem Sound.process (h : d.Sound) : d.process.Sound :=
  (h.process_of_carried (P := fun _ => True) (fun _ _ _ => trivial)
    (fun _ _ _ _ _ _ _ _ _ => trivial) trivial).1

theorem Sound.processStep (h : d.Sound) (id : ClusterId) : (d.processStep id).Sound := by
  rcases h.processStep_cases id with ⟨he, -⟩ | ⟨ps, plan, out, d', -, hc, he⟩
  · rwa [he]
  · rw [he]
    exact hc.sound.withWorklist _

/-- No check of the search fails. -/
theorem Sound.checked_process (h : d.Sound) : Checked.process d = .ok d.process := by
  unfold Checked.process Decomposition.process
  generalize d.searchBudget = steps
  induction steps generalizing d with
  | zero => rfl
  | succ steps ih =>
    unfold Checked.processWithin processWithin
    cases d.worklist with
    | nil => rfl
    | cons id rest =>
      have hrest := h.withWorklist rest
      dsimp only
      rw [hrest.checked_processStep id]
      exact ih (hrest.processStep id)

/-! ### Structural operations -/

theorem Sound.receive (h : d.Sound) {c : Cluster} (hc : c.Valid) : (d.receive c).2.Sound :=
  Sound.withWorklist ⟨h.grounded.insertCluster hc, h.settled.insertCluster h.grounded⟩ _

/-- The decompositions that adding and removing clusters and changing the root lead to. -/
inductive Reachable : Decomposition → Prop
  | empty : Reachable empty
  | add {d d' : Decomposition} {c : Cluster} {id : ClusterId} (h : Reachable d)
      (ha : d.add c = .ok (id, d')) : Reachable d'.withoutJournal
  | remove {d d' : Decomposition} {id : ClusterId} (h : Reachable d)
      (hr : d.remove id = .ok d') : Reachable d'.withoutJournal
  | setRoot {d d' : Decomposition} {id : ClusterId} (h : Reachable d)
      (hr : d.setRoot id = .ok d') : Reachable d'.withoutJournal

/-- A cluster is added if it is valid. -/
theorem Sound.add_eq_ok (h : d.Sound) {c : Cluster} : d.add c = .ok (id, d') ↔
    c.Valid ∧ id = d.clusters.nextKey ∧ d' = (d.receive c).2.process := by
  unfold Decomposition.add
  by_cases hc : c.Valid
  · have hprocess := (h.receive hc).checked_process
    rw [requireValid_eq_ok.2 hc]
    show (Checked.process (d.receive c).2 >>= fun x => .ok ((d.receive c).1, x)) = _ ↔ _
    rw [hprocess]
    show Except.ok ((d.receive c).1, (d.receive c).2.process) = _ ↔ _
    rw [Except.ok.injEq, Prod.mk.injEq, eq_comm, eq_comm (b := d')]
    exact (and_iff_right hc).symm
  · refine ⟨fun hadd => ?_, fun hadd => absurd hadd.1 hc⟩
    cases hreq : requireValid c with
    | error e =>
      rw [hreq] at hadd
      cases hadd
    | ok _ => exact absurd (requireValid_eq_ok.1 hreq) hc

/-- A cluster is removed if it is in use and no merge has it as its output. -/
theorem Sound.remove_eq_ok (h : d.Sound) : d.remove id = .ok d' ↔
    d.Live id ∧ d.determining? id = none ∧ d' = (d.dropCluster id).process := by
  unfold Decomposition.remove
  by_cases hl : d.Live id
  · have hc : d.clusters.contains id = true := Registry.contains_iff.2 hl
    cases hdet : d.determining? id with
    | none => simp [hc, hl, (h.dropCluster hdet).1.checked_process, eq_comm (a := d')]
    | some k => simp [hc]
  · have hc : d.clusters.contains id = false := by
      rw [← Bool.not_eq_true, Registry.contains_iff]
      exact hl
    simp [hc, hl]

/-- A rigid in use can be made the root. -/
theorem Sound.setRoot_eq_ok (h : d.Sound) : d.setRoot id = .ok d' ↔
    ∃ p, d.cluster? id = some (.rigid p) ∧ d' = (d.reroot id).process := by
  unfold Decomposition.setRoot
  rw [(h.reroot id).1.checked_process]
  cases hc : d.cluster? id with
  | none => simp
  | some c => cases c <;> simp [eq_comm]

theorem Reachable.sound (h : d.Reachable) : d.Sound := by
  have hjournal : ∀ {d : Decomposition}, d.Sound → d.withoutJournal.Sound := fun hd =>
    hd.congr (fun _ => rfl) rfl rfl rfl
  induction h with
  | empty => exact sound_empty
  | add _ ha ih =>
    obtain ⟨hc, -, rfl⟩ := ih.add_eq_ok.1 ha
    exact hjournal (ih.receive hc).process
  | remove _ hr ih =>
    obtain ⟨-, hdet, rfl⟩ := ih.remove_eq_ok.1 hr
    exact hjournal (ih.dropCluster hdet).1.process
  | setRoot _ hr ih =>
    obtain ⟨p, -, rfl⟩ := ih.setRoot_eq_ok.1 hr
    exact hjournal (ih.reroot _).1.process

/-- What holds of the empty decomposition and is kept by a new cluster, by the removal of an added
one, by a new root and by the search holds of every reachable decomposition. -/
theorem Reachable.induction_of_changes {P : Decomposition → Prop} (h : d.Reachable)
    (hempty : P .empty) (hjournal : ∀ d, P d → P d.withoutJournal)
    (hreceive : ∀ d c, d.Reachable → c.Valid → P d → P (d.receive c).2)
    (hdrop : ∀ d id, d.Reachable → d.determining? id = none → P d → P (d.dropCluster id))
    (hreroot : ∀ d id p, d.Reachable → d.cluster? id = some (.rigid p) → P d → P (d.reroot id))
    (hprocess : ∀ d, d.Sound → P d → P d.process) : P d := by
  induction h with
  | empty => exact hempty
  | @add d _ c _ hd ha ih =>
    obtain ⟨hc, -, rfl⟩ := hd.sound.add_eq_ok.1 ha
    exact hjournal _ (hprocess _ (hd.sound.receive hc) (hreceive d c hd hc ih))
  | @remove d _ id hd hr ih =>
    obtain ⟨-, hdet, rfl⟩ := hd.sound.remove_eq_ok.1 hr
    exact hjournal _ (hprocess _ (hd.sound.dropCluster hdet).1 (hdrop d id hd hdet ih))
  | @setRoot d _ id hd hr ih =>
    obtain ⟨p, hp, rfl⟩ := hd.sound.setRoot_eq_ok.1 hr
    exact hjournal _ (hprocess _ (hd.sound.reroot id).1 (hreroot d id p hd hp ih))

/-- A property of the merges holds of every reachable decomposition if the search keeps it and it
carries over to any decomposition without new merges in which no key stands for another cluster. -/
theorem Reachable.induction_of_transfer {P : Decomposition → Prop} (h : d.Reachable)
    (hempty : P .empty)
    (htransfer : ∀ d d', d.Grounded → d'.Grounded →
      (∀ k m, d'.merges.find? k = some m → d.merges.find? k = some m) →
      (∀ id c c', d.cluster? id = some c → d'.cluster? id = some c' → c = c') → P d → P d')
    (hprocess : ∀ d, d.Sound → P d → P d.process) : P d := by
  -- Removals and new roots leave a remnant, so the property transfers.
  have hremnant : ∀ d d', d.Sound → d'.Sound → d'.Remnant d → P d → P d' :=
    fun d d' hd hd' hrem => htransfer d d' hd.grounded hd'.grounded hrem.merges
      fun id c c' hc hc' => Option.some_inj.1 (hc.symm.trans (hrem.cluster? hc'))
  have hsound : ∀ {d : Decomposition}, d.Sound → d.withoutJournal.Sound := fun hd =>
    hd.congr (fun _ => rfl) rfl rfl rfl
  refine (h.induction_of_changes (P := fun d => d.Sound ∧ P d) ⟨sound_empty, hempty⟩ ?_ ?_ ?_ ?_
    fun d hd hP => ⟨hd.process, hprocess d hd hP.2⟩).2
  · intro d hP
    refine ⟨hsound hP.1, htransfer d _ hP.1.grounded (hsound hP.1).grounded (fun _ _ hk => hk) ?_
      hP.2⟩
    exact fun id c c' hc hc' => Option.some_inj.1 (hc.symm.trans hc')
  · intro d c hd hc hP
    have hs := hd.sound.receive hc
    refine ⟨hs, htransfer d _ hd.sound.grounded hs.grounded (fun _ _ hk => hk)
      (fun id c₁ c₂ h₁ h₂ => ?_) hP.2⟩
    rcases (cluster?_insertCluster ⟨c, false, false⟩).1 h₂ with h₂ | ⟨rfl, -⟩
    · exact Option.some_inj.1 (h₁.symm.trans h₂)
    · -- The new key stood for nothing before.
      exact absurd (live_of_cluster? h₁) not_live_nextKey
  · intro d id hd hdet hP
    obtain ⟨hs, hrem⟩ := hd.sound.dropCluster hdet
    exact ⟨hs, hremnant d _ hd.sound hs hrem hP.2⟩
  · intro d id p hd _ hP
    obtain ⟨hs, hrem⟩ := hd.sound.reroot id
    -- The mark moves first, which changes neither merges nor clusters; then the dependents go.
    have hmark := hd.sound.withRootMark id
    refine ⟨hs, hremnant _ _ hmark hs hrem (htransfer d _ hd.sound.grounded hmark.grounded ?_ ?_
      hP.2)⟩
    · intro k m hk
      rwa [merges_withRootMark] at hk
    · intro i c c' hc hc'
      rw [cluster?_withRootMark] at hc'
      exact Option.some_inj.1 (hc.symm.trans hc')

end Decomposition

namespace Solver

variable {α β : Type}

/-! ### Changes beside the decomposition -/

/-- The change leaves the decomposition alone, whether it succeeds or fails. -/
def Keeps (x : SolverM α) : Prop := ∀ s, (x.run.run s).2.decomposition = s.decomposition

theorem keeps_pure (a : α) : Keeps (pure a) := fun _ => rfl

theorem keeps_throw (e : SolverError) : Keeps (throw e : SolverM α) := fun _ => rfl

theorem keeps_get : Keeps get := fun _ => rfl

theorem keeps_modify {f : Solver → Solver} (h : ∀ s, (f s).decomposition = s.decomposition) :
    Keeps (modify f) := h

theorem Keeps.bind {x : SolverM α} (hx : Keeps x) {f : α → SolverM β} (hf : ∀ a, Keeps (f a)) :
    Keeps (x >>= f) := by
  intro s
  have hs := hx s
  rw [Change.run_bind]
  cases h : x.run.run s with
  | mk r s' =>
    rw [h] at hs
    cases r with
    | error e => exact hs
    | ok a => exact (hf a s').trans hs

theorem keeps_forM (l : List α) {f : α → SolverM Unit} (h : ∀ a, Keeps (f a)) :
    Keeps (l.forM f) := by
  induction l with
  | nil => exact keeps_pure ()
  | cons a rest ih => exact (h a).bind fun _ => ih

theorem keeps_mapM (l : List α) {f : α → SolverM β} (h : ∀ a, Keeps (f a)) :
    Keeps (l.mapM f) := by
  induction l with
  | nil => exact keeps_pure []
  | cons a rest ih =>
    rw [List.mapM_cons]
    exact (h a).bind fun _ => ih.bind fun _ => keeps_pure _

theorem keeps_changeFlow
    (change : Dataflow Candidates → Except DataflowError (α × Dataflow Candidates)) :
    Keeps (changeFlow change) := by
  intro s
  unfold changeFlow
  rw [Change.run_get_bind]
  cases change s.flow with
  | error e => rfl
  | ok r => rfl

theorem keeps_propagate : Keeps propagate := by
  intro s
  unfold propagate
  rw [Change.run_get_bind]
  cases s.flow.propagate with
  | mk result flow => cases result <;> rfl

theorem keeps_cellOf (id : ClusterId) : Keeps (cellOf id) := by
  refine keeps_get.bind fun s => ?_
  split
  · exact keeps_pure _
  · exact keeps_throw _

theorem keeps_installSelector (m : Merge) (candidates : CellId Candidates) :
    Keeps (installSelector m candidates) :=
  (keeps_cellOf _).bind fun _ => keeps_get.bind fun _ => keeps_changeFlow _

theorem keeps_rebuildSelector (id : MergeId) : Keeps (rebuildSelector id) := by
  refine keeps_get.bind fun s => ?_
  split
  · refine (keeps_mapM _ keeps_cellOf).bind fun _ => (keeps_changeFlow _).bind fun _ => ?_
    exact (keeps_installSelector _ _).bind fun _ => keeps_modify fun _ => rfl
  · exact keeps_pure ()

theorem keeps_rebuildSelectors : Keeps rebuildSelectors :=
  keeps_get.bind fun _ => (keeps_forM _ keeps_rebuildSelector).bind fun _ => keeps_propagate

/-! ### Replaying edits -/

theorem keeps_wireCluster (id : ClusterId) : Keeps (wireCluster id) :=
  keeps_get.bind fun _ => (keeps_changeFlow _).bind fun _ => keeps_modify fun _ => rfl

theorem keeps_wireMerge (id : MergeId) (m : Merge) : Keeps (wireMerge id m) := by
  refine (keeps_mapM _ keeps_cellOf).bind fun _ => keeps_get.bind fun _ => ?_
  refine (keeps_changeFlow _).bind fun _ => (keeps_changeFlow _).bind fun _ => ?_
  exact (keeps_installSelector _ _).bind fun _ => keeps_modify fun _ => rfl

theorem keeps_unwireMethod (m : MethodId Candidates) : Keeps (unwireMethod m) := by
  refine keeps_get.bind fun _ => ?_
  split
  · exact keeps_changeFlow _
  · exact keeps_pure _

theorem keeps_unwireCell (c : CellId Candidates) : Keeps (unwireCell c) := by
  refine keeps_get.bind fun _ => ?_
  split
  · exact keeps_changeFlow _
  · exact keeps_pure _

theorem keeps_unwireMerge (id : MergeId) : Keeps (unwireMerge id) := by
  refine keeps_get.bind fun _ => ?_
  split
  · exact keeps_pure _
  · refine Keeps.bind (keeps_modify ?_) fun _ => ?_
    · intro s
      rfl
    · exact (keeps_unwireMethod _).bind fun _ => (keeps_unwireMethod _).bind fun _ =>
        keeps_unwireCell _

theorem keeps_unwireCluster (id : ClusterId) : Keeps (unwireCluster id) := by
  refine keeps_get.bind fun _ => ?_
  split
  · exact keeps_pure _
  · refine Keeps.bind (keeps_modify ?_) fun _ => keeps_unwireCell _
    intro s
    rfl

theorem keeps_replay (e : Edit) : Keeps (replay e) := by
  cases e with
  | clusterAdded id => exact keeps_wireCluster id
  | mergeAdded id =>
    refine keeps_get.bind fun _ => ?_
    split
    · exact keeps_wireMerge id _
    · exact keeps_pure ()
  | mergeRemoved id => exact keeps_unwireMerge id
  | clusterRemoved id => exact keeps_unwireCluster id

/-- Taking over a decomposition leaves just that decomposition, without its journal, even if the
dataflow cannot follow. -/
theorem decomposition_restructure (d : Decomposition) (s : Solver) :
    ((restructure d).run.run s).2.decomposition = d.withoutJournal :=
  ((keeps_forM d.journal keeps_replay).bind fun _ => keeps_propagate)
    { s with decomposition := d.withoutJournal }

/-! ### Runs -/

/-- A call of a solver. -/
inductive Operation where
  | add (c : Cluster)
  | remove (id : ClusterId)
  | setRoot (id : ClusterId)
  | assign (id : ClusterId) (candidates : Candidates)
  | setPrototype (name : PointName) (p : Vec)
  | clearPrototype (name : PointName)
  | addSelection (q : SelectionConstraint)
  | removeSelection (q : SelectionConstraint)

/-- The solver after a call, whatever the call returns. -/
def perform (s : Solver) : Operation → Solver
  | .add c => ((Solver.add c).run.run s).2
  | .remove id => ((Solver.remove id).run.run s).2
  | .setRoot id => ((Solver.setRoot id).run.run s).2
  | .assign id candidates => ((Solver.assign id candidates).run.run s).2
  | .setPrototype name p => ((Solver.setPrototype name p).run.run s).2
  | .clearPrototype name => ((Solver.clearPrototype name).run.run s).2
  | .addSelection q => ((Solver.addSelection q).run.run s).2
  | .removeSelection q => ((Solver.removeSelection q).run.run s).2

/-- The solver after a list of calls, from a solver without clusters. -/
def run (config : SolverConfig) (ops : List Operation) : Solver :=
  ops.foldl perform (withConfig config)

theorem run_concat (config : SolverConfig) (ops : List Operation) (op : Operation) :
    run config (ops ++ [op]) = (run config ops).perform op := by
  simp [run]

/-- A change of the decomposition leaves what it computes, or the old one if it is refused. -/
theorem decomposition_attempt (r : Except DecompositionError Decomposition) (s : Solver) :
    ((match r with
      | .error e => throw (.decomposition e)
      | .ok d => restructure d : SolverM Unit).run.run s).2.decomposition =
      match r with
      | .error _ => s.decomposition
      | .ok d => d.withoutJournal := by
  cases r with
  | error e => rfl
  | ok d => exact decomposition_restructure d s

theorem decomposition_remove (id : ClusterId) (s : Solver) :
    (s.perform (.remove id)).decomposition = match s.decomposition.remove id with
      | .error _ => s.decomposition
      | .ok d => d.withoutJournal :=
  decomposition_attempt (s.decomposition.remove id) s

theorem decomposition_setRoot (id : ClusterId) (s : Solver) :
    (s.perform (.setRoot id)).decomposition = match s.decomposition.setRoot id with
      | .error _ => s.decomposition
      | .ok d => d.withoutJournal :=
  decomposition_attempt (s.decomposition.setRoot id) s

theorem decomposition_add (c : Cluster) (s : Solver) :
    (s.perform (.add c)).decomposition = match s.decomposition.add c with
      | .error _ => s.decomposition
      | .ok (_, d) => d.withoutJournal := by
  show ((Solver.add c).run.run s).2.decomposition = _
  unfold Solver.add
  rw [Change.run_get_bind]
  cases s.decomposition.add c with
  | error e => rfl
  | ok r =>
    show ((restructure r.2 >>= fun _ => pure r.1).run.run s).2.decomposition = _
    -- The key is returned only if the dataflow could follow, but the change stands either way.
    have hr := decomposition_restructure r.2 s
    rw [Change.run_bind]
    cases h : (restructure r.2).run.run s with
    | mk result s' =>
      rw [h] at hr
      cases result <;> exact hr

theorem keeps_refreshPrototype : Keeps refreshPrototype :=
  keeps_get.bind fun _ => (keeps_changeFlow _).bind fun _ => keeps_propagate

theorem keeps_assign (id : ClusterId) (candidates : Candidates) : Keeps (assign id candidates) :=
  (keeps_cellOf id).bind fun _ => (keeps_changeFlow _).bind fun _ => keeps_propagate

theorem keeps_setPrototype (name : PointName) (p : Vec) : Keeps (setPrototype name p) := by
  refine Keeps.bind (keeps_modify ?_) fun _ => keeps_refreshPrototype
  intro s
  rfl

theorem keeps_clearPrototype (name : PointName) : Keeps (clearPrototype name) := by
  refine keeps_get.bind fun _ => ?_
  split
  · refine Keeps.bind (keeps_modify ?_) fun _ => keeps_refreshPrototype
    intro s
    rfl
  · exact keeps_pure _

theorem keeps_addSelection (q : SelectionConstraint) : Keeps (addSelection q) := by
  refine keeps_get.bind fun _ => ?_
  split
  · exact keeps_pure _
  · refine Keeps.bind (keeps_modify ?_) fun _ => keeps_rebuildSelectors.bind fun _ => keeps_pure _
    intro s
    rfl

theorem keeps_removeSelection (q : SelectionConstraint) : Keeps (removeSelection q) := by
  refine keeps_get.bind fun _ => ?_
  split
  · refine Keeps.bind (keeps_modify ?_) fun _ => keeps_rebuildSelectors.bind fun _ => keeps_pure _
    intro s
    rfl
  · exact keeps_pure _

/-- Every operation leads from a reachable decomposition to a reachable one. -/
theorem reachable_perform {s : Solver} (h : s.decomposition.Reachable) (op : Operation) :
    (s.perform op).decomposition.Reachable := by
  -- Three calls change the decomposition, each as its own step; the others keep it.
  cases op with
  | add c =>
    rw [decomposition_add]
    cases ha : s.decomposition.add c with
    | error e => exact h
    | ok r => exact .add h ha
  | remove id =>
    rw [decomposition_remove]
    cases hr : s.decomposition.remove id with
    | error e => exact h
    | ok d => exact .remove h hr
  | setRoot id =>
    rw [decomposition_setRoot]
    cases hr : s.decomposition.setRoot id with
    | error e => exact h
    | ok d => exact .setRoot h hr
  | assign id candidates => exact (keeps_assign id candidates s).symm ▸ h
  | setPrototype name p => exact (keeps_setPrototype name p s).symm ▸ h
  | clearPrototype name => exact (keeps_clearPrototype name s).symm ▸ h
  | addSelection q => exact (keeps_addSelection q s).symm ▸ h
  | removeSelection q => exact (keeps_removeSelection q s).symm ▸ h

/-- The decomposition of a solver is reachable after every run. -/
theorem reachable_run (config : SolverConfig) (ops : List Operation) :
    (run config ops).decomposition.Reachable := by
  have hstart : (withConfig config).decomposition.Reachable := .empty
  unfold run
  generalize withConfig config = s at hstart ⊢
  induction ops generalizing s with
  | nil => exact hstart
  | cons op rest ih => exact ih (s.perform op) (reachable_perform hstart op)

end Solver

end PlanarSketch
