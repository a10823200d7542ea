/-
What calls can fail with.

A call asks for something that there is: a valid cluster is added, an added
cluster is removed, a rigid becomes the root, or a cluster in use is given
candidates; or it does not touch clusters at all.  Such a call is never
refused.  Every check of the search passes, since the decomposition stays
sound from each step to the next, and no change of the dataflow is refused,
since the dataflow mirrors the decomposition.  What is left is that a method
fails when it is evaluated.

* `Sound.searchSucceeds`: no check of the search fails;
* `Operation.Allowed`: the calls that ask for something that there is;
* `Mirrors.decomposition_perform`: what a call leaves is what its search leads
  to, or what there was;
* `refusals_run`: just these calls are not refused, after every run.
-/
import PlanarSketch.Proofs.Replies

namespace PlanarSketch

namespace Decomposition

variable {d : Decomposition}

/-- Whatever there is to be searched, no check of the search fails. -/
def SearchSucceeds (d : Decomposition) : Prop :=
  ∀ w, ∃ e, Checked.process { d with worklist := w } = .ok e

theorem Sound.searchSucceeds (h : d.Sound) : d.SearchSucceeds := fun w =>
  ⟨_, (h.withWorklist w).checked_process⟩

end Decomposition

namespace Solver

open Decomposition

variable {s : Solver} {d : Decomposition} {op : Operation}

/-- The call asks for something that there is. -/
def Operation.Allowed (d : Decomposition) : Operation → Prop
  | .add c => c.Valid
  | .remove id => d.Live id ∧ d.determining? id = none
  | .setRoot id => ∃ p, d.cluster? id = some (.rigid p)
  | .assign id _ => d.Live id
  | .setPrototype _ _ => True
  | .clearPrototype _ => True
  | .addSelection _ => True
  | .removeSelection _ => True

/-- A structural call succeeds on a sound decomposition if it is allowed, and only then. -/
theorem Operation.allowed_iff (h : d.Sound) (hop : op.isStructural = true) :
    op.Allowed d ↔ ∃ e, op.change? d = some (.ok e) := by
  -- Each of the three structural calls has its own check, which comes before anything is changed.
  cases op with
  | add c =>
    constructor
    · intro hc
      refine ⟨(d.receive c).2.process, ?_⟩
      rw [Operation.change?, h.add_eq_ok.2 ⟨hc, rfl, rfl⟩]
      rfl
    · rintro ⟨e, he⟩
      obtain ⟨id, hadd⟩ := exists_add_eq_ok he
      exact (h.add_eq_ok.1 hadd).1
  | remove id =>
    constructor
    · rintro ⟨hl, hdet⟩
      exact ⟨_, congrArg some (h.remove_eq_ok.2 ⟨hl, hdet, rfl⟩)⟩
    · rintro ⟨e, he⟩
      obtain ⟨hl, hdet, -⟩ := h.remove_eq_ok.1 (Option.some_inj.1 he)
      exact ⟨hl, hdet⟩
  | setRoot id =>
    constructor
    · rintro ⟨p, hp⟩
      exact ⟨_, congrArg some (h.setRoot_eq_ok.2 ⟨p, hp, rfl⟩)⟩
    · rintro ⟨e, he⟩
      obtain ⟨p, hp, -⟩ := h.setRoot_eq_ok.1 (Option.some_inj.1 he)
      exact ⟨p, hp⟩
  | assign | setPrototype | clearPrototype | addSelection | removeSelection => cases hop

/-- A call that is allowed can only fail in a method. -/
theorem Mirrors.reply_of_allowed (h : Mirrors s.decomposition s)
    (hreach : s.decomposition.Reachable) (hop : op.Allowed s.decomposition) :
    s.reply op = .ok () ∨ ∃ failure, s.reply op = .error (.dataflow (.method failure)) := by
  have hends := h.ends hreach op
  generalize s.reply op = r, s.perform op = s' at hends ⊢
  match hends with
  | .refused (.inl he) =>
    -- A structural call is refused by its own check only, and that passes.
    have hstructural : op.isStructural = true := by
      rw [op.isStructural_eq s.decomposition, he]
      rfl
    obtain ⟨d, hd⟩ := (Operation.allowed_iff hreach.sound hstructural).1 hop
    rw [hd] at he
    cases he
  | .refused (.inr ⟨id, candidates, he, hnone⟩) =>
    subst he
    -- An assignment is refused for want of a cell, but a live cluster has one.
    obtain ⟨c, hc⟩ := (h.clusters id).1 hop
    rw [hnone] at hc
    cases hc
  | .idle _ _ => exact .inl rfl
  | @Ends.evaluated _ _ s₁ hp =>
    have hformed := (hp.mirrors h hreach).formed
    match hpropagate : s₁.flow.propagate with
    | (.ok (), g) => exact .inl rfl
    | (.error e, g) =>
      obtain ⟨failure, rfl⟩ := hformed.exists_methodError hpropagate
      exact .inr ⟨failure, rfl⟩

/-- A call that is not allowed is refused. -/
theorem Mirrors.reply_of_not_allowed (h : Mirrors s.decomposition s)
    (hreach : s.decomposition.Reachable) (hop : ¬op.Allowed s.decomposition) :
    ∃ e, s.reply op = .error (.decomposition e) := by
  by_cases hstructural : op.isStructural = true
  · -- A structural call that is not allowed does not pass its check, so the evaluation is not
    -- reached.
    have hrefused : ∀ d, op.change? s.decomposition ≠ some (.ok d) := fun d hd =>
      hop ((Operation.allowed_iff hreach.sound hstructural).2 ⟨d, hd⟩)
    rw [op.isStructural_eq s.decomposition] at hstructural
    have hends := h.ends hreach op
    generalize s.reply op = r, s.perform op = s' at hends ⊢
    match hends with
    | .refused _ => exact ⟨_, rfl⟩
    | .idle hnone _ =>
      rw [hnone] at hstructural
      cases hstructural
    | .evaluated hp =>
      rcases hp.decomposition_cases with ⟨d, hd, -⟩ | ⟨hnone, -⟩
      · exact absurd hd (hrefused d)
      · rw [hnone] at hstructural
        cases hstructural
  · -- Of the others only an assignment can be refused.
    match op with
    | .assign id candidates =>
      have hnone : s.cells.find? id = none := Option.eq_none_iff_forall_ne_some.2 fun c hc =>
        hop ((h.clusters id).2 ⟨c, hc⟩)
      refine ⟨.unknownCluster, ?_⟩
      rw [reply, run_assign_of_none hnone]
    | .setPrototype _ _ => exact absurd trivial hop
    | .clearPrototype _ => exact absurd trivial hop
    | .addSelection _ => exact absurd trivial hop
    | .removeSelection _ => exact absurd trivial hop

/-! ### What a call leaves -/

/-- The decomposition in which a call begins to search for merges, if it comes to that. -/
def Operation.searched? (d : Decomposition) : Operation → Option Decomposition
  | .add c => if c.Valid then some (d.receive c).2 else none
  | .remove id =>
    if d.clusters.contains id && (d.determining? id).isNone then some (d.dropCluster id) else none
  | .setRoot id => if (d.cluster? id).any Cluster.isRigid then some (d.reroot id) else none
  | _ => none

/-- A call begins to search in a sound decomposition without new merges. -/
theorem Operation.searched?_sound {x : Decomposition} (h : d.Sound)
    (hx : op.searched? d = some x) : x.Sound ∧
      (∀ k m, x.merges.find? k = some m → d.merges.find? k = some m) ∧
        op.change? d = some (.ok x.process) := by
  match op with
  | .add c =>
    obtain ⟨hc, hsome⟩ := Option.ite_none_right_eq_some.1 hx
    obtain rfl := Option.some_inj.1 hsome
    refine ⟨h.receive hc, fun _ _ hk => hk, ?_⟩
    rw [Operation.change?, h.add_eq_ok.2 ⟨hc, rfl, rfl⟩]
    rfl
  | .remove id =>
    obtain ⟨hid, hsome⟩ := Option.ite_none_right_eq_some.1 hx
    rw [Bool.and_eq_true, Option.isNone_iff_eq_none] at hid
    obtain rfl := Option.some_inj.1 hsome
    obtain ⟨hs, hrem⟩ := h.dropCluster hid.2
    have hl : d.Live id := Registry.contains_iff.1 hid.1
    exact ⟨hs, hrem.merges, congrArg some (h.remove_eq_ok.2 ⟨hl, hid.2, rfl⟩)⟩
  | .setRoot id =>
    obtain ⟨hid, hsome⟩ := Option.ite_none_right_eq_some.1 hx
    obtain rfl := Option.some_inj.1 hsome
    obtain ⟨c, hc, hr⟩ := (Option.any_eq_true _ _).1 hid
    obtain ⟨p, rfl⟩ := Cluster.kind_eq_rigid_iff.1 (Cluster.isRigid_iff.1 hr)
    obtain ⟨hs, hrem⟩ := h.reroot id
    refine ⟨hs, fun k m hk => ?_, congrArg some (h.setRoot_eq_ok.2 ⟨p, hc, rfl⟩)⟩
    rw [← merges_withRootMark]
    exact hrem.merges k m hk

theorem Operation.searched?_eq_none (h : op.isStructural = false) (d : Decomposition) :
    op.searched? d = none := by
  cases op <;> first | rfl | cases h

/-- A change that succeeds is a search. -/
theorem Operation.searched?_ne_none {d' : Decomposition} (h : d.Sound)
    (hd : op.change? d = some (.ok d')) : op.searched? d ≠ none := by
  have hallowed : op.isStructural = true → op.Allowed d := fun hop =>
    (Operation.allowed_iff h hop).2 ⟨d', hd⟩
  match op with
  | .add c => simp [searched?, show c.Valid from hallowed rfl]
  | .remove id =>
    obtain ⟨hl, hdet⟩ := hallowed rfl
    simp [searched?, Registry.contains_iff.2 hl, hdet]
  | .setRoot id =>
    obtain ⟨p, hp⟩ := hallowed rfl
    simp [searched?, hp]

/-- A call leaves what its search leads to, or what there was. -/
theorem Mirrors.decomposition_perform (h : Mirrors s.decomposition s)
    (hreach : s.decomposition.Reachable) (op : Operation) : (s.perform op).decomposition =
      (op.searched? s.decomposition).elim s.decomposition fun x => x.process.withoutJournal := by
  obtain ⟨htrue, hfalse⟩ := h.judge?_eq hreach op
  cases hop : op.isStructural with
  | false =>
    rw [Operation.searched?_eq_none hop]
    exact (hfalse hop).2
  | true =>
    have hjudged := htrue hop
    unfold Operation.judge? at hjudged
    cases hx : op.searched? s.decomposition with
    | some x =>
      -- The check has passed, and the search follows it.
      rw [(Operation.searched?_sound hreach.sound hx).2.2] at hjudged
      exact (Prod.mk.inj (Option.some_inj.1 hjudged)).2.symm
    | none =>
      split at hjudged
      · cases hjudged
      · exact (Prod.mk.inj (Option.some_inj.1 hjudged)).2.symm
      · rename_i d' hd
        exact absurd hx (Operation.searched?_ne_none hreach.sound hd)

/-! ### All runs -/

/-- After every run the search passes all its checks, whatever is on the worklist, and also once a
valid cluster has been added, an added one has been removed or the root has changed.  A call is
refused if and only if it is not allowed, and otherwise it succeeds or a method fails: no other
error of the dataflow ever comes back. -/
theorem refusals_run (config : SolverConfig) (ops : List Operation) :
    let s := run config ops
    let d := s.decomposition
    (d.SearchSucceeds ∧
      (∀ c : Cluster, c.Valid → (d.receive c).2.SearchSucceeds) ∧
      (∀ id, d.Live id → d.determining? id = none → (d.dropCluster id).SearchSucceeds) ∧
      ∀ id p, d.cluster? id = some (.rigid p) → (d.reroot id).SearchSucceeds) ∧
    ∀ op : Operation,
      (op.Allowed d →
        s.reply op = .ok () ∨ ∃ failure, s.reply op = .error (.dataflow (.method failure))) ∧
      (¬op.Allowed d → ∃ e, s.reply op = .error (.decomposition e)) := by
  intro s d
  have hmirrors := mirrors_run config ops
  have hreach := reachable_run config ops
  have hs := hreach.sound
  refine ⟨⟨hs.searchSucceeds, fun c hc => ?_, fun id _ hdet => ?_, fun id _ _ => ?_⟩, fun op => ?_⟩
  · exact (hs.receive hc).searchSucceeds
  · exact (hs.dropCluster hdet).1.searchSucceeds
  · exact (hs.reroot id).1.searchSucceeds
  · exact ⟨hmirrors.reply_of_allowed hreach, hmirrors.reply_of_not_allowed hreach⟩

end Solver

end PlanarSketch
