/-
Replies of a solver.

A call is refused by the decomposition, does nothing, or is carried out; and
what is carried out ends with one evaluation.  No change of the dataflow is
refused on the way, whatever the calls before returned, so the only thing that
can go wrong is that a method fails during the evaluation, and by then the
structure has changed for good.

It follows that the structure cannot tell values apart: two runs with the same
structural calls go through the same decompositions and are refused the same
calls, whatever happens to the values in between.

* `Operation.adjust`: what a call does to the constraints of the user;
* `Prepares`, `Ends`: what a call does before the evaluation, and how it ends;
* `Mirrors.ends`: every call ends in one of these ways;
* `mirrors_run`: the dataflow mirrors the decomposition after every run;
* `structure_run`: structure is independent of values.
-/
import PlanarSketch.Proofs.Faithful
import PlanarSketch.Proofs.Incremental

namespace PlanarSketch

namespace Dataflow

variable {V : Type} {g g' : Dataflow V} {e : DataflowError} {m : MethodId V} {i : Installed V}

theorem exists_methodError_of_execute (hi : g.methods.find? m = some i)
    (he : g.execute m = .error e) : ∃ failure, e = .method failure := by
  unfold execute results at he
  rw [hi] at he
  dsimp only at he
  split at he
  · rename_i hr
    split at hr
    · cases hr
    · split at hr
      · cases hr
        cases he
        exact ⟨_, rfl⟩
      · split at hr
        · cases hr
        · cases hr
          cases he
          exact ⟨_, rfl⟩
  · cases he

/-- A propagation fails only where a method does. -/
theorem Formed.exists_methodError (h : g.Formed) (hp : g.propagate = (.error e, g')) :
    ∃ failure, e = .method failure := by
  obtain ⟨ran, m, rest, hschedule, hran, hfailed⟩ := propagate_eq_error hp
  have hmem : m ∈ g.schedule := hschedule ▸ List.mem_append_right _ List.mem_cons_self
  have haff := h.mem_affected_of_mem_schedule hmem
  obtain ⟨i, hi⟩ := Registry.mem_keys_iff.1 (h.mem_keys_of_awaits (h.mem_affected_iff.1 haff))
  exact exists_methodError_of_execute ((h.settled.executeAll hran).2.1 ▸ hi) hfailed

end Dataflow

namespace Solver

open Decomposition

variable {s s' s₁ : Solver} {d : Decomposition} {op : Operation}

/-! ### How a call ends -/

theorem run_propagate (s : Solver) : propagate.run.run s =
    (s.flow.propagate.1.mapError .dataflow, { s with flow := s.flow.propagate.2 }) := by
  unfold propagate
  rw [Change.run_get_bind]
  match s.flow.propagate with
  | (.ok (), g) => rfl
  | (.error e, g) => rfl

/-- What a call returns, apart from keys and flags. -/
def reply (s : Solver) : Operation → Except SolverError Unit
  | .add c => ((Solver.add c).run.run s).1.map fun _ => ()
  | .remove id => ((Solver.remove id).run.run s).1
  | .setRoot id => ((Solver.setRoot id).run.run s).1
  | .assign id candidates => ((Solver.assign id candidates).run.run s).1
  | .setPrototype name p => ((Solver.setPrototype name p).run.run s).1
  | .clearPrototype name => ((Solver.clearPrototype name).run.run s).1
  | .addSelection q => ((Solver.addSelection q).run.run s).1.map fun _ => ()
  | .removeSelection q => ((Solver.removeSelection q).run.run s).1.map fun _ => ()

/-- The constraints on solutions after a call. -/
def Operation.adjust (p : OrderedSet SelectionConstraint) :
    Operation → OrderedSet SelectionConstraint
  | .addSelection q => p.insert q
  | .removeSelection q => p.erase q
  | _ => p

/-- A call has done everything but the evaluation: it has taken over a changed decomposition, given
a cell candidates, or rebuilt the selectors. -/
inductive Prepares (s : Solver) : Operation → Solver → Prop
  | restructured {op : Operation} {d : Decomposition} {s₁ : Solver}
      (hd : op.change? s.decomposition = some (.ok d))
      (hs : (d.journal.forM replay).run.run { s with decomposition := d.withoutJournal } =
        (.ok (), s₁)) : Prepares s op s₁
  | assigned {id : ClusterId} {c : CellId Candidates} {candidates : Candidates}
      (hc : s.cells.find? id = some c) :
      Prepares s (.assign id candidates) { s with flow := s.flow.write c (some candidates) }
  | drawn {op : Operation} {p : OrderedMap PointName Vec}
      (hop : op.change? s.decomposition = none) (hkeep : op.adjust s.selection = s.selection) :
      Prepares s op { s with
        prototypes := p, flow := s.flow.write s.prototypeCell (some [.ofPoints p]) }
  | selected {op : Operation} {s₁ : Solver} (hop : op.change? s.decomposition = none)
      (hs : (s.roster.members.forM rebuildSelector).run.run
        { s with selection := op.adjust s.selection } = (.ok (), s₁)) : Prepares s op s₁

/-- A call is refused, does nothing, or ends with an evaluation. -/
inductive Ends (s : Solver) (op : Operation) : Except SolverError Unit → Solver → Prop
  | refused {e : DecompositionError}
      (h : op.change? s.decomposition = some (.error e) ∨
        ∃ id candidates, op = .assign id candidates ∧ s.cells.find? id = none) :
      Ends s op (.error (.decomposition e)) s
  | idle (h : op.change? s.decomposition = none) (hkeep : op.adjust s.selection = s.selection) :
      Ends s op (.ok ()) s
  | evaluated {s₁ : Solver} (h : Prepares s op s₁) :
      Ends s op (s₁.flow.propagate.1.mapError .dataflow)
        { s₁ with flow := s₁.flow.propagate.2 }

theorem ends_of_run {x : SolverM Unit} (h : Prepares s op s₁)
    (hx : x.run.run s' = propagate.run.run s₁) : Ends s op (x.run.run s').1 (x.run.run s').2 := by
  rw [hx, run_propagate]
  exact .evaluated h

/-- A changed decomposition is taken over and evaluated. -/
theorem Mirrors.ends_of_restructure (h : Mirrors s.decomposition s)
    (hreach : s.decomposition.Reachable) (hop : op.change? s.decomposition = some (.ok d)) :
    Ends s op ((restructure d).run.run s).1 ((restructure d).run.run s).2 := by
  obtain ⟨s₁, h₁, -⟩ := (h.traces_of_change hreach hop).mirrors
  refine ends_of_run (.restructured hop h₁) ?_
  unfold restructure
  rw [Change.run_bind_of_ok (modify_eq_ok.2 rfl), Change.run_bind_of_ok h₁]

/-- A key or flag that is returned in the end changes nothing. -/
theorem run_bind_pure {α : Type} (x : SolverM Unit) (a : α) (s : Solver) :
    (((x >>= fun _ => pure a : SolverM α).run.run s).1.map fun _ => ()) = (x.run.run s).1 ∧
      ((x >>= fun _ => pure a : SolverM α).run.run s).2 = (x.run.run s).2 := by
  rw [Change.run_bind]
  match x.run.run s with
  | (.ok (), s') => exact ⟨rfl, rfl⟩
  | (.error e, s') => exact ⟨rfl, rfl⟩

theorem run_set_propagate {c : CellId Candidates} (hc : c ∈ s.flow.cells.keys) (v : Candidates) :
    (editFlow (fun flow => flow.set c v) >>= fun _ => propagate).run.run s =
      propagate.run.run { s with flow := s.flow.write c (some v) } := by
  have hset : s.flow.set c v = .ok (s.flow.write c (some v)) := if_pos (Registry.contains_iff.2 hc)
  exact Change.run_bind_of_ok (editFlow_eq_ok.2 ⟨_, hset, rfl⟩) _

theorem Mirrors.mem_keys {x : Decomposition} {c : CellId Candidates} {r : CellRole}
    (h : Mirrors x s) (hr : s.Serves c r) : c ∈ s.flow.cells.keys :=
  (h.allotted.mem_iff c).2 ⟨r, hr⟩

theorem Mirrors.ends_of_refresh (h : Mirrors s.decomposition s)
    (hop : op.change? s.decomposition = none) (hkeep : op.adjust s.selection = s.selection)
    (f : OrderedMap PointName Vec → OrderedMap PointName Vec) :
    let x : SolverM Unit := (modify fun s => { s with prototypes := f s.prototypes }) >>= fun _ =>
      refreshPrototype
    Ends s op (x.run.run s).1 (x.run.run s).2 := by
  refine ends_of_run (.drawn (p := f s.prototypes) hop hkeep) ?_
  rw [Change.run_bind_of_ok (modify_eq_ok.2 rfl)]
  unfold refreshPrototype
  rw [Change.run_get_bind]
  have hserves : s.Serves s.prototypeCell .prototype := rfl
  exact run_set_propagate (s := { s with prototypes := f s.prototypes }) (h.mem_keys hserves) _

theorem Mirrors.exists_rebuildSelectors (h : Mirrors s.decomposition s) (ks : List MergeId) :
    ∃ s₁, (ks.forM Solver.rebuildSelector).run.run s = (.ok (), s₁) := by
  induction ks generalizing s with
  | nil => exact ⟨s, rfl⟩
  | cons k rest ih =>
    obtain ⟨s', hs'⟩ := h.exists_rebuildSelector k
    obtain ⟨s₁, hs₁⟩ := ih (h.rebuildSelector hs')
    exact ⟨s₁, bind_eq_ok.2 ⟨(), s', hs', hs₁⟩⟩

theorem Mirrors.ends_of_rebuild (h : Mirrors s.decomposition s)
    (hop : op.change? s.decomposition = none)
    (f : OrderedSet SelectionConstraint → OrderedSet SelectionConstraint)
    (hf : op.adjust s.selection = f s.selection) :
    let x : SolverM Bool := (modify fun s => { s with selection := f s.selection }) >>= fun _ =>
      Solver.rebuildSelectors >>= fun _ => pure true
    Ends s op ((x.run.run s).1.map fun _ => ()) (x.run.run s).2 := by
  -- The selection is not mirrored, so writing it keeps the mirror.
  have hstart : Mirrors s.decomposition { s with selection := f s.selection } :=
    h.congr (fun _ => Iff.rfl) rfl rfl rfl rfl rfl rfl h.formed
  -- No selector fails to be rebuilt, so the evaluation is reached.
  obtain ⟨s₁, h₁⟩ := Mirrors.exists_rebuildSelectors (s := { s with selection := f s.selection })
    hstart s.roster.members
  have hrun : Solver.rebuildSelectors.run.run { s with selection := f s.selection } =
      propagate.run.run s₁ := by
    unfold Solver.rebuildSelectors
    rw [Change.run_get_bind]
    exact Change.run_bind_of_ok h₁ _
  intro x
  have hx : x.run.run s = (Solver.rebuildSelectors >>= fun _ => pure true : SolverM Bool).run.run
      { s with selection := f s.selection } := Change.run_bind_of_ok (modify_eq_ok.2 rfl) _
  obtain ⟨hreply, hstate⟩ := run_bind_pure Solver.rebuildSelectors true
    { s with selection := f s.selection }
  rw [hx, hreply, hstate]
  exact ends_of_run (.selected hop (hf ▸ h₁)) hrun

theorem run_assign_of_none {id : ClusterId} {candidates : Candidates}
    (hc : s.cells.find? id = none) : (Solver.assign id candidates).run.run s =
      (.error (.decomposition .unknownCluster), s) := by
  unfold Solver.assign cellOf
  rw [Change.run_bind, Change.run_get_bind, hc]
  rfl

/-- Every call is refused, does nothing, or ends with an evaluation. -/
theorem Mirrors.ends (h : Mirrors s.decomposition s) (hreach : s.decomposition.Reachable)
    (op : Operation) : Ends s op (s.reply op) (s.perform op) := by
  -- A call that changes the decomposition runs the checks of the decomposition first and is
  -- refused if they fail; otherwise it evaluates.
  cases op with
  | add c =>
    show Ends s (.add c) (((Solver.add c).run.run s).1.map fun _ => ()) ((Solver.add c).run.run s).2
    unfold Solver.add
    rw [Change.run_get_bind]
    cases hadd : s.decomposition.add c with
    | error e => exact .refused (.inl (by rw [Operation.change?, hadd]; rfl))
    | ok r =>
      obtain ⟨id, d⟩ := r
      have hop : (Operation.add c).change? s.decomposition = some (.ok d) := by
        rw [Operation.change?, hadd]
        rfl
      obtain ⟨hreply, hstate⟩ := run_bind_pure (restructure d) id s
      dsimp only
      rw [hreply, hstate]
      exact h.ends_of_restructure hreach hop
  | remove id =>
    show Ends s _ ((Solver.remove id).run.run s).1 ((Solver.remove id).run.run s).2
    unfold Solver.remove
    rw [Change.run_get_bind]
    cases hr : s.decomposition.remove id with
    | error e => exact .refused (.inl (congrArg some hr))
    | ok d => exact h.ends_of_restructure hreach (congrArg some hr)
  | setRoot id =>
    show Ends s _ ((Solver.setRoot id).run.run s).1 ((Solver.setRoot id).run.run s).2
    unfold Solver.setRoot
    rw [Change.run_get_bind]
    cases hr : s.decomposition.setRoot id with
    | error e => exact .refused (.inl (congrArg some hr))
    | ok d => exact h.ends_of_restructure hreach (congrArg some hr)
  | assign id candidates =>
    show Ends s _ ((Solver.assign id candidates).run.run s).1
      ((Solver.assign id candidates).run.run s).2
    cases hc : s.cells.find? id with
    | none =>
      -- Without a cell there is no such cluster.
      rw [run_assign_of_none hc]
      exact .refused (.inr ⟨id, candidates, rfl, hc⟩)
    | some c =>
      have hserves : s.Serves c (.cluster id) := hc
      refine ends_of_run (.assigned hc) ?_
      unfold Solver.assign
      rw [Change.run_bind_of_ok (cellOf_eq_ok.2 ⟨hc, rfl⟩)]
      exact run_set_propagate (h.mem_keys hserves) candidates
  | setPrototype name p => exact h.ends_of_refresh rfl rfl fun m => m.insert name p
  | clearPrototype name =>
    show Ends s _ ((Solver.clearPrototype name).run.run s).1
      ((Solver.clearPrototype name).run.run s).2
    unfold Solver.clearPrototype
    rw [Change.run_get_bind]
    split
    · -- Erasing a prototype draws it anew; one that is not there is left alone.
      exact h.ends_of_refresh rfl rfl fun m => m.erase name
    · exact .idle rfl rfl
  | addSelection q =>
    show Ends s _ (((Solver.addSelection q).run.run s).1.map fun _ => ())
      ((Solver.addSelection q).run.run s).2
    unfold Solver.addSelection
    rw [Change.run_get_bind]
    split
    · -- A constraint that stands in the selection already is not inserted again.
      rename_i hq
      exact .idle rfl (OrderedSet.insert_of_mem (OrderedSet.contains_iff.1 hq))
    · exact h.ends_of_rebuild rfl (fun p => p.insert q) rfl
  | removeSelection q =>
    show Ends s _ (((Solver.removeSelection q).run.run s).1.map fun _ => ())
      ((Solver.removeSelection q).run.run s).2
    unfold Solver.removeSelection
    rw [Change.run_get_bind]
    split
    · exact h.ends_of_rebuild rfl (fun p => p.erase q) rfl
    · -- One that does not stand there cannot be erased.
      rename_i hq
      exact .idle rfl (OrderedSet.erase_of_not_mem (mt OrderedSet.contains_iff.2 hq))

/-! ### All runs -/

theorem Prepares.mirrors (hp : Prepares s op s₁) (h : Mirrors s.decomposition s)
    (hreach : s.decomposition.Reachable) : Mirrors s₁.decomposition s₁ := by
  -- The decomposition is carried over edit by edit; the others write cells or replace selectors.
  match hp with
  | .restructured hd hs =>
    obtain ⟨s₂, h₂, hm⟩ := (h.traces_of_change hreach hd).mirrors
    obtain rfl : s₁ = s₂ := congrArg Prod.snd (hs.symm.trans h₂)
    exact hm
  | @Prepares.assigned _ _ c v _ =>
    obtain ⟨hm, -, hk⟩ := Dataflow.write_frame s.flow c (some v)
    exact h.congr (fun _ => Iff.rfl) rfl rfl rfl rfl hm hk (h.formed.write c (some v))
  | .drawn (p := p) _ _ =>
    obtain ⟨hm, -, hk⟩ := Dataflow.write_frame s.flow s.prototypeCell (some [.ofPoints p])
    exact h.congr (fun _ => Iff.rfl) rfl rfl rfl rfl hm hk (h.formed.write _ _)
  | .selected _ hs =>
    have hstart : Mirrors s.decomposition { s with selection := op.adjust s.selection } :=
      h.congr (fun _ => Iff.rfl) rfl rfl rfl rfl rfl rfl h.formed
    exact forM_eq_ok (I := fun s => Mirrors s.decomposition s)
      (fun _ _ _ _ hm hre => hm.rebuildSelector hre) hstart hs

theorem Mirrors.perform (h : Mirrors s.decomposition s) (hreach : s.decomposition.Reachable)
    (op : Operation) : Mirrors (s.perform op).decomposition (s.perform op) := by
  have hends := h.ends hreach op
  generalize s.reply op = r, s.perform op = s' at hends
  match hends with
  | .refused _ => exact h
  | .idle _ _ => exact h
  | .evaluated hp =>
    have h₁ := hp.mirrors h hreach
    obtain ⟨hf, hm, hk⟩ := h₁.formed.propagate
    exact h₁.congr (fun _ => Iff.rfl) rfl rfl rfl rfl hm hk hf

/-- The dataflow mirrors the decomposition after every run, whatever the calls returned. -/
theorem mirrors_run (config : SolverConfig) (ops : List Operation) :
    Mirrors (run config ops).decomposition (run config ops) := by
  have hstart := (faithful_withConfig config).mirrors
  have hreach : (withConfig config).decomposition.Reachable := .empty
  unfold run
  generalize withConfig config = s at hstart hreach ⊢
  induction ops generalizing s with
  | nil => exact hstart
  | cons op rest ih =>
    exact ih (s.perform op) (hstart.perform hreach op) (reachable_perform hreach op)

/-! ### Structure and values -/

/-- Whether a call changes the structure. -/
def Operation.isStructural : Operation → Bool
  | .add _ => true
  | .remove _ => true
  | .setRoot _ => true
  | _ => false

/-- How a call ended as far as the structure is concerned. -/
inductive Verdict where
  | refused (e : DecompositionError)
  | carriedOut
  | stuck (e : DataflowError)
deriving DecidableEq

/-- The verdict that a reply implies.  When a method fails the structure has changed already. -/
def Verdict.ofReply : Except SolverError Unit → Verdict
  | .ok () => .carriedOut
  | .error (.decomposition e) => .refused e
  | .error (.dataflow (.method _)) => .carriedOut
  | .error (.dataflow e) => .stuck e

/-- The verdict on every structural call and the decomposition after it: the clusters under their
keys with their flags and root marks, the top level in order, the merges with all that is known of
them, and the root. -/
def history (s : Solver) : List Operation → List (Verdict × Decomposition)
  | [] => []
  | op :: rest =>
    let later := (s.perform op).history rest
    if op.isStructural then (.ofReply (s.reply op), (s.perform op).decomposition) :: later
    else later

/-- The verdict on a call, and what it leaves, as the decomposition alone decides. -/
def Operation.judge? (d : Decomposition) (op : Operation) : Option (Verdict × Decomposition) :=
  match op.change? d with
  | none => none
  | some (.error e) => some (.refused e, d)
  | some (.ok d') => some (.carriedOut, d'.withoutJournal)

/-- The same for a list of structural calls. -/
def judgements (d : Decomposition) : List Operation → List (Verdict × Decomposition)
  | [] => []
  | op :: rest =>
    match op.judge? d with
    | none => judgements d rest
    | some judgement => judgement :: judgements judgement.2 rest

theorem Operation.isStructural_eq (op : Operation) (d : Decomposition) :
    op.isStructural = (op.change? d).isSome := by
  cases op <;> rfl

theorem Prepares.decomposition_cases (hp : Prepares s op s₁) :
    (∃ d, op.change? s.decomposition = some (.ok d) ∧ s₁.decomposition = d.withoutJournal) ∨
      op.change? s.decomposition = none ∧ s₁.decomposition = s.decomposition := by
  match hp with
  | .restructured (d := d) hd hs =>
    have hkeeps := keeps_forM d.journal keeps_replay { s with decomposition := d.withoutJournal }
    rw [hs] at hkeeps
    exact .inl ⟨d, hd, hkeeps⟩
  | .assigned hc => exact .inr ⟨rfl, rfl⟩
  | .drawn hop _ => exact .inr ⟨hop, rfl⟩
  | .selected hop hs =>
    have hkeeps := keeps_forM s.roster.members keeps_rebuildSelector
      { s with selection := op.adjust s.selection }
    rw [hs] at hkeeps
    exact .inr ⟨hop, hkeeps⟩

/-- An evaluation carries the change out, whether or not a method fails. -/
theorem Mirrors.ofReply_propagate {x : Decomposition} (h : Mirrors x s) :
    Verdict.ofReply (s.flow.propagate.1.mapError .dataflow) = .carriedOut := by
  match hp : s.flow.propagate with
  | (.ok (), g) => rfl
  | (.error e, g) =>
    obtain ⟨failure, rfl⟩ := h.formed.exists_methodError hp
    rfl

/-- The decomposition alone decides what becomes of it. -/
theorem Mirrors.judge?_eq (h : Mirrors s.decomposition s) (hreach : s.decomposition.Reachable)
    (op : Operation) :
    (op.isStructural = true → op.judge? s.decomposition =
        some (.ofReply (s.reply op), (s.perform op).decomposition)) ∧
      (op.isStructural = false → op.judge? s.decomposition = none ∧
        (s.perform op).decomposition = s.decomposition) := by
  have hends := h.ends hreach op
  generalize s.reply op = r, s.perform op = s' at hends
  rw [op.isStructural_eq s.decomposition, Operation.judge?]
  -- The verdict is that of the check, and of the evaluation only whether a method failed.
  match hends with
  | .refused (.inl hop) =>
    rw [hop]
    exact ⟨fun _ => rfl, nofun⟩
  | .refused (.inr ⟨id, candidates, hop, _⟩) =>
    rw [hop]
    exact ⟨nofun, fun _ => ⟨rfl, rfl⟩⟩
  | .idle hop _ =>
    rw [hop]
    exact ⟨nofun, fun _ => ⟨rfl, rfl⟩⟩
  | @Ends.evaluated _ _ s₁ hp =>
    show (_ → _ = some (_, s₁.decomposition)) ∧ (_ → _ ∧ s₁.decomposition = _)
    rw [(hp.mirrors h hreach).ofReply_propagate]
    rcases hp.decomposition_cases with ⟨d, hop, hd⟩ | ⟨hop, hd⟩
    · rw [hop, hd]
      exact ⟨fun _ => rfl, nofun⟩
    · rw [hop, hd]
      exact ⟨nofun, fun _ => ⟨rfl, rfl⟩⟩

theorem Mirrors.history_eq (h : Mirrors s.decomposition s) (hreach : s.decomposition.Reachable)
    (ops : List Operation) :
    s.history ops = judgements s.decomposition (ops.filter Operation.isStructural) := by
  induction ops generalizing s with
  | nil => rfl
  | cons op rest ih =>
    have hrest := ih (h.perform hreach op) (reachable_perform hreach op)
    obtain ⟨htrue, hfalse⟩ := h.judge?_eq hreach op
    rw [history, hrest, List.filter_cons]
    by_cases hop : op.isStructural = true
    · rw [if_pos hop, if_pos hop, judgements, htrue hop]
    · rw [if_neg hop, if_neg hop, (hfalse (Bool.not_eq_true _ ▸ hop)).2]

theorem not_stuck_of_mem_judgements {ops : List Operation} {j : Verdict × Decomposition}
    (h : j ∈ judgements d ops) (e : DataflowError) : j.1 ≠ .stuck e := by
  induction ops generalizing d with
  | nil => cases h
  | cons op rest ih =>
    rw [judgements] at h
    split at h
    · exact ih h
    · rename_i judgement hj
      rcases List.mem_cons.1 h with rfl | h
      · unfold Operation.judge? at hj
        split at hj
        · cases hj
        · cases hj
          exact nofun
        · cases hj
          exact nofun
      · exact ih h

/-- Two runs that make the same structural calls in the same order are given the same verdicts and
go through the same decompositions, whatever else they do, however they are configured and
whichever evaluations fail; and the dataflow never gets stuck. -/
theorem structure_run (config₁ config₂ : SolverConfig) (ops₁ ops₂ : List Operation)
    (h : ops₁.filter Operation.isStructural = ops₂.filter Operation.isStructural) :
    (withConfig config₁).history ops₁ = (withConfig config₂).history ops₂ ∧
      ∀ j ∈ (withConfig config₁).history ops₁, ∀ e, j.1 ≠ .stuck e := by
  have hjudged : ∀ config ops, (withConfig config).history ops =
      judgements .empty (ops.filter Operation.isStructural) := fun config ops =>
    (faithful_withConfig config).mirrors.history_eq .empty ops
  refine ⟨?_, fun j hj e => ?_⟩
  · rw [hjudged, hjudged, h]
  · rw [hjudged] at hj
    exact not_stuck_of_mem_judgements hj e

/-- Three sides make a triangle, and make it again when the root changes.  In one run there is
nothing to evaluate; in the other one the candidates have no points, so every evaluation fails. -/
theorem structure_run_triangle :
    let side : PointName → PointName → Operation := fun p q => .add (.rigid (.ofList [p, q]))
    let idle : List Operation := [side "a" "b", side "b" "c", side "c" "a"]
    let failing : List Operation :=
      [side "a" "b", .assign ⟨1⟩ [.ofList []], side "b" "c", .assign ⟨2⟩ [.ofList []],
        side "c" "a", .assign ⟨3⟩ [.ofList []]]
    let other : SolverConfig := { usePrototype := false }
    (run {} idle).reply (.setRoot ⟨1⟩) = .ok () ∧
      (run other failing).reply (.setRoot ⟨1⟩) =
        .error (.dataflow (.method (.missingPoint "merge_ccc" "b"))) ∧
      (run {} (idle ++ [.setRoot ⟨1⟩])).decomposition.root = some ⟨1⟩ ∧
      (withConfig {}).history (idle ++ [.setRoot ⟨1⟩]) =
        (withConfig other).history (failing ++ [.setRoot ⟨1⟩]) := by
  intro side idle failing other
  exact ⟨by decide +kernel, by decide +kernel, by decide +kernel,
    (structure_run {} other (idle ++ [.setRoot ⟨1⟩]) (failing ++ [.setRoot ⟨1⟩]) rfl).1⟩

end Solver

end PlanarSketch
