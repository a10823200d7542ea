/-
Redundant merges.

A plan says whether its merge is redundant before anything is known about
sources.  To speak of every merge that was ever applied, also of those that
have been undone since, a second version of each step of the search writes
down the merges that the step applies, each with the decomposition that it was
applied to.  The record is exact: the merges after a search are those before
it and then the recorded ones, and every merge in use has been recorded.

Each recorded merge is redundant if and only if two of its inputs overlap.  If
its inputs disagree on where they have something from, they have something in
common, so the merge was redundant; hence a merge is overconstrained just when
it is not consistent.

* `Application`: a merge at the moment at which it is applied;
* `applied`, `Solver.applications`: the record of a search and of a run;
* `values_process`, `Solver.exists_application`: the record is exact;
* `ByRules`, `ByRules.of_mem_applied`: what every rule comes to holds of all
  that is recorded;
* `byRules_tells`: every rule tells rightly whether its merge is redundant;
* `Solver.redundancy_run`: what this means for all runs.
-/
import PlanarSketch.Proofs.Fitting
import PlanarSketch.Proofs.Overlap
import PlanarSketch.Proofs.Refusals

namespace PlanarSketch

open Decomposition

/-- Corresponding lists have corresponding pairs. -/
theorem forall₂_pairs {α β : Type} {R : α → β → Prop} {l : List α} {k : List β}
    (h : List.Forall₂ R l k) :
    List.Forall₂ (fun p q => R p.1 q.1 ∧ R p.2 q.2) (pairs l) (pairs k) := by
  induction h with
  | nil => exact .nil
  | cons hab hrest ih =>
    rw [pairs_cons, pairs_cons]
    refine List.rel_append ?_ ih
    rw [List.forall₂_map_left_iff, List.forall₂_map_right_iff]
    exact hrest.imp fun _ _ h => ⟨hab, h⟩

theorem exists_mem_iff_of_forall₂ {α β : Type} {P : α → Prop} {Q : β → Prop} {l : List α}
    {k : List β} (h : List.Forall₂ (fun a b => P a ↔ Q b) l k) :
    (∃ a ∈ l, P a) ↔ ∃ b ∈ k, Q b := by
  induction h with
  | nil => simp
  | cons hab _ ih => simp [hab, ih]

/-! ### Merges as they are applied -/

/-- A merge at the moment at which it is applied: the decomposition that it is added to, in which
all its inputs are there, and what is added. -/
structure Application where
  before : Decomposition
  draft : MergeDraft

namespace Application

/-- The merge that is added. -/
def merge (a : Application) : Merge := a.before.mergeFor a.draft

/-- Two of the inputs overlap. -/
def InputsOverlap (a : Application) : Prop := ∃ p ∈ pairs a.draft.inputs, ∃ c e,
  a.before.cluster? p.1 = some c ∧ a.before.cluster? p.2 = some e ∧ c.Overlaps e

/-- The draft is redundant if and only if two of the inputs overlap. -/
def Tells (a : Application) : Prop := a.draft.redundant = true ↔ a.InputsOverlap

/-- Whether inputs overlap can be read off the clusters that they stand for. -/
theorem inputsOverlap_iff {a : Application} {cs : List Cluster}
    (h : List.Forall₂ (fun id c => a.before.cluster? id = some c) a.draft.inputs cs) :
    a.InputsOverlap ↔ ∃ q ∈ pairs cs, q.1.Overlaps q.2 := by
  refine exists_mem_iff_of_forall₂ ((forall₂_pairs h).imp fun p q hpq => ?_)
  rw [hpq.1, hpq.2]
  simp

/-- Inputs that disagree on where they have something from have something in common. -/
theorem inputsOverlap_of_not_consistent {a : Application} (h : a.merge.consistent = false) :
    a.InputsOverlap := by
  obtain ⟨p, hp, hno⟩ := List.all_eq_false.1 (h : a.before.consistentInputs a.draft.inputs = false)
  refine ⟨p, hp, ?_⟩
  rw [agreeOnSources] at hno
  split at hno
  · rename_i c e hc he
    split at hno
    · exact absurd rfl hno
    · rename_i common hcommon
      exact ⟨c, e, hc, he, common, hcommon⟩
  · exact absurd rfl hno

/-- Where redundancy is told rightly, a merge is overconstrained just when it is not consistent. -/
theorem Tells.overconstrained_eq {a : Application} (h : a.Tells) :
    a.merge.overconstrained = !a.merge.consistent := by
  show (a.draft.redundant && !a.merge.consistent) = _
  cases hc : a.merge.consistent with
  | true => rw [Bool.not_true, Bool.and_false]
  | false => rw [h.2 (inputsOverlap_of_not_consistent hc)]; rfl

end Application

/-! ### Recording -/

namespace Decomposition

variable {d : Decomposition} {plan : Plan}

/-- The draft of a derived hedgehog. -/
def derivation (source : ClusterId) (centre : PointName) (arms : NameSet) : MergeDraft where
  rule := .deriveHedgehog
  inputs := [source]
  consumed := []
  output := .hedgehog centre arms
  redundant := false
  geometry := .hedgehog centre arms
  prototypeConstraints := []

/-- The derivations that provide inputs. -/
def appliedFor (d : Decomposition) : List PlanInput → List Application
  | [] => []
  | .existing _ :: rest => d.appliedFor rest
  | .derived source centre arms :: rest =>
    ⟨d, derivation source centre arms⟩ :: (d.derive source centre arms).2.appliedFor rest

/-- The merges that carry out a plan. -/
def appliedBy (d : Decomposition) (plan : Plan) : List Application :=
  d.appliedFor plan.inputs ++
    [⟨(d.provideAll plan.inputs).2, plan.draft (d.provideAll plan.inputs).1⟩]

/-- The merges of one step of the search. -/
def appliedAt (d : Decomposition) (id : ClusterId) : List Application :=
  if d.isTopLevel id then (d.search id).elim [] d.appliedBy else []

/-- The merges of a number of steps. -/
def appliedWithin : Nat → Decomposition → List Application
  | 0, _ => []
  | steps + 1, d =>
    match d.worklist with
    | [] => []
    | id :: rest =>
      { d with worklist := rest }.appliedAt id ++
        appliedWithin steps ({ d with worklist := rest }.processStep id)

/-- The merges of a search, in the order in which they are applied. -/
def applied (d : Decomposition) : List Application := appliedWithin d.searchBudget d

/-! #### The record is exact -/

theorem values_addMerge (d : Decomposition) (draft : MergeDraft) :
    (d.addMerge draft).2.merges.values = d.merges.values ++ [d.mergeFor draft] :=
  Registry.values_insert _ _

theorem values_provideAll (d : Decomposition) (inputs : List PlanInput) :
    (d.provideAll inputs).2.merges.values =
      d.merges.values ++ (d.appliedFor inputs).map Application.merge := by
  induction inputs generalizing d with
  | nil => exact (List.append_nil _).symm
  | cons i rest ih =>
    rw [provideAll_cons, ih]
    cases i with
    | existing id => rfl
    | derived source centre arms =>
      show (d.addMerge (derivation source centre arms)).2.merges.values ++ _ = _
      rw [values_addMerge, List.append_assoc]
      rfl

theorem values_carryOut (d : Decomposition) (plan : Plan) : (d.carryOut plan).2.merges.values =
    d.merges.values ++ (d.appliedBy plan).map Application.merge := by
  rw [carryOut_eq, values_addMerge, values_provideAll, appliedBy, List.map_append,
    List.append_assoc]
  rfl

theorem values_processStep (d : Decomposition) (id : ClusterId) :
    (d.processStep id).merges.values =
      d.merges.values ++ (d.appliedAt id).map Application.merge := by
  unfold processStep appliedAt
  split
  · cases d.search id with
    | none => exact (List.append_nil _).symm
    | some plan =>
      -- The worklist is all that changes after the plan has been carried out.
      rw [Option.elim_some, ← values_carryOut]
      dsimp only
      split <;> rfl
  · exact (List.append_nil _).symm

/-- The merges after a search are those before it and then the recorded ones. -/
theorem values_process (d : Decomposition) :
    d.process.merges.values = d.merges.values ++ d.applied.map Application.merge := by
  unfold process applied
  generalize d.searchBudget = steps
  induction steps generalizing d with
  | zero => exact (List.append_nil _).symm
  | succ steps ih =>
    unfold processWithin appliedWithin
    cases d.worklist with
    | nil => exact (List.append_nil _).symm
    | cons id rest =>
      dsimp only
      rw [ih, values_processStep, List.map_append, List.append_assoc]

/-! #### What is recorded comes from the rules -/

/-- Every derivation has the property, and so has what a rule finds once its inputs are there. -/
structure ByRules (P : Application → Prop) : Prop where
  derivation : ∀ d source centre arms, P ⟨d, derivation source centre arms⟩
  finding : ∀ {d ps plan}, d.Sound → Finding d ps plan →
    P ⟨(d.provideAll plan.inputs).2, plan.draft (d.provideAll plan.inputs).1⟩

variable {P : Application → Prop} {a : Application}

theorem ByRules.of_mem_appliedFor (h : ByRules P) {inputs : List PlanInput}
    (ha : a ∈ d.appliedFor inputs) : P a := by
  induction inputs generalizing d with
  | nil => cases ha
  | cons i rest ih =>
    cases i with
    | existing id => exact ih ha
    | derived source centre arms =>
      rcases List.mem_cons.1 ha with rfl | ha
      · exact h.derivation d source centre arms
      · exact ih ha

theorem ByRules.of_mem_appliedAt (h : ByRules P) (hd : d.Sound) {id : ClusterId}
    (ha : a ∈ d.appliedAt id) : P a := by
  unfold appliedAt at ha
  split at ha
  · rename_i htop
    cases hs : d.search id with
    | none =>
      rw [hs] at ha
      cases ha
    | some plan =>
      rw [hs] at ha
      obtain ⟨ps, hf⟩ := finding_of_search (isTopLevel_iff.1 htop) hs
      rcases List.mem_append.1 ha with ha | ha
      · exact h.of_mem_appliedFor ha
      · obtain rfl := List.mem_singleton.1 ha
        exact h.finding hd hf
  · cases ha

/-- What the rules come to is what a search applies. -/
theorem ByRules.of_mem_applied (h : ByRules P) (hd : d.Sound) (ha : a ∈ d.applied) : P a := by
  unfold applied at ha
  revert ha
  generalize d.searchBudget = steps
  intro ha
  induction steps generalizing d with
  | zero => cases ha
  | succ steps ih =>
    unfold appliedWithin at ha
    split at ha
    · cases ha
    · rename_i id rest _
      have hrest := hd.withWorklist rest
      rcases List.mem_append.1 ha with ha | ha
      · exact h.of_mem_appliedAt hrest ha
      · exact ih (hrest.processStep id) ha

/-- Every rule tells rightly whether what it finds is redundant. -/
theorem byRules_tells : ByRules Application.Tells where
  derivation := fun d source centre arms => by
    -- A single input has nothing to overlap with.
    refine iff_of_false (by simp [derivation]) ?_
    rintro ⟨p, hp, -⟩
    exact absurd hp List.not_mem_nil
  finding := fun hd hf => by
    obtain ⟨cs, hin, htells⟩ := hf.tells hd.grounded
    exact htells.trans (Application.inputsOverlap_iff (hd.grounded.forall₂_provideAll hin)).symm

end Decomposition

/-! ### Runs -/

namespace Solver

variable {s : Solver} {d : Decomposition} {op : Operation}

/-- The merges that a list of calls applies one after the other. -/
def applications (s : Solver) : List Operation → List Application
  | [] => []
  | op :: rest =>
    (op.searched? s.decomposition).elim [] Decomposition.applied ++ (s.perform op).applications rest

/-- What the rules come to is what a list of calls applies. -/
theorem of_mem_applications {P : Application → Prop} (hP : ByRules P) {ops : List Operation}
    {a : Application} (hreach : s.decomposition.Reachable) (ha : a ∈ s.applications ops) : P a := by
  induction ops generalizing s with
  | nil => cases ha
  | cons op rest ih =>
    rcases List.mem_append.1 ha with ha | ha
    · cases hx : op.searched? s.decomposition with
      | none =>
        rw [hx] at ha
        cases ha
      | some x =>
        rw [hx] at ha
        exact hP.of_mem_applied (Operation.searched?_sound hreach.sound hx).1 ha
    · exact ih (reachable_perform hreach op) ha

/-- Every merge in use has been recorded, unless it was there from the beginning. -/
theorem exists_application {ops : List Operation} {k : MergeId} {m : Merge}
    (h : Mirrors s.decomposition s) (hreach : s.decomposition.Reachable)
    (hk : (ops.foldl perform s).decomposition.merges.find? k = some m) :
    m ∈ s.decomposition.merges.values ∨ ∃ a ∈ s.applications ops, a.merge = m := by
  induction ops generalizing s with
  | nil => exact .inl (Registry.mem_values_iff.2 ⟨k, hk⟩)
  | cons op rest ih =>
    rcases ih (h.perform hreach op) (reachable_perform hreach op) hk with hm | ⟨a, ha, hm⟩
    · rw [h.decomposition_perform hreach] at hm
      cases hx : op.searched? s.decomposition with
      | none =>
        rw [hx] at hm
        exact .inl hm
      | some x =>
        -- The search only adds the merges that it applies.
        obtain ⟨-, hold, -⟩ := Operation.searched?_sound hreach.sound hx
        have hvalues : m ∈ x.process.merges.values := by rwa [hx] at hm
        rw [values_process, List.mem_append] at hvalues
        rcases hvalues with hm | hm
        · obtain ⟨j, hj⟩ := Registry.mem_values_iff.1 hm
          exact .inl (Registry.mem_values_iff.2 ⟨j, hold j m hj⟩)
        · obtain ⟨a, ha, rfl⟩ := List.mem_map.1 hm
          refine .inr ⟨a, List.mem_append_left _ ?_, rfl⟩
          rwa [hx]
    · exact .inr ⟨a, List.mem_append_right _ ha, hm⟩

/-- Every merge that a run ever applies is redundant if and only if two of its inputs have an
intersection, and then these two share a relation.  Every merge in use is one of those, and it is
overconstrained just when it is not consistent. -/
theorem redundancy_run (config : SolverConfig) (ops : List Operation) :
    (∀ a ∈ (withConfig config).applications ops,
      (a.draft.redundant = true ↔ a.InputsOverlap) ∧
      (a.draft.redundant = true → ∃ p ∈ pairs a.draft.inputs, ∃ c e common,
        a.before.cluster? p.1 = some c ∧ a.before.cluster? p.2 = some e ∧
        c.intersection e = some common ∧
        ∃ r ∈ common.relations, c.implies r = true ∧ e.implies r = true)) ∧
    ∀ k m, (run config ops).decomposition.merges.find? k = some m →
      (∃ a ∈ (withConfig config).applications ops, a.merge = m) ∧
      m.overconstrained = !m.consistent := by
  have hmirrors := (faithful_withConfig config).mirrors
  have htells : ∀ a ∈ (withConfig config).applications ops, a.Tells := fun a ha =>
    of_mem_applications byRules_tells .empty ha
  refine ⟨fun a ha => ⟨htells a ha, fun hred => ?_⟩, fun k m hk => ?_⟩
  · obtain ⟨p, hp, c, e, hc, he, hover⟩ := (htells a ha).1 hred
    obtain ⟨common, hcommon, hr⟩ := hover.exists_relation
    exact ⟨p, hp, c, e, common, hc, he, hcommon, hr⟩
  · rcases exists_application hmirrors .empty hk with hm | ⟨a, ha, rfl⟩
    · exact absurd hm List.not_mem_nil
    · exact ⟨⟨a, ha, rfl⟩, (htells a ha).overconstrained_eq⟩

end Solver

end PlanarSketch
