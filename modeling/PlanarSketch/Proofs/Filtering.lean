/-
What the constraints of the user filter.

A merge filters by a constraint if it is the first to decide it: its output has
the three points, and none of its inputs has all of them.  An input that has
them counts as filtered.  If a merge computed that input, then some merge before
it was the first indeed; but clusters that are added have no selector, so their
candidates pass unasked, and so does all that is computed from them.

* `FiltersBy`, `Attuned.filtersBy_iff`: the merges that filter by a constraint;
* `exists_filter_or_added`: before every cluster that decides a constraint there
  is a merge that filters by it or an added cluster that decides it;
* `filtering_run`: all of this after every run;
* `exists_unfiltered`: so a candidate may get past a constraint.
-/
import PlanarSketch.Proofs.Selectors

namespace PlanarSketch

namespace Solver

open Decomposition

variable {s : Solver} {k : MergeId} {m : Merge} {q : SelectionConstraint}

/-- The selector of a merge in use is there, and it has a constraint of the user. -/
def FiltersBy (s : Solver) (k : MergeId) (q : SelectionConstraint) : Prop :=
  ∃ m name, s.decomposition.merges.find? k = some m ∧
    s.selector? k = some (selectMethod name (s.selectorFor m)) ∧
    q ∈ (s.selectorFor m).userConstraints

theorem FiltersBy.mem_userConstraintsFor (h : s.FiltersBy k q)
    (hk : s.decomposition.merges.find? k = some m) : q ∈ s.userConstraintsFor m := by
  obtain ⟨m', name, hm', -, hq⟩ := h
  rwa [Option.some_inj.1 (hk.symm.trans hm')]

/-- A merge filters by the constraints that it is the first to decide. -/
theorem Attuned.filtersBy_iff (h : s.Attuned) (hm : Mirrors s.decomposition s)
    (hk : s.decomposition.merges.find? k = some m) : s.FiltersBy k q ↔
      q ∈ s.selection ∧ s.decides q m.output = true ∧ ∀ id ∈ m.inputs, s.decides q id = false := by
  have hmem : q ∈ s.userConstraintsFor m ↔ q ∈ s.selection ∧
      s.decides q m.output = true ∧ ∀ id ∈ m.inputs, s.decides q id = false := by
    simp [userConstraintsFor]
  rw [← hmem]
  refine ⟨fun hfilter => hfilter.mem_userConstraintsFor hk, fun hq => ?_⟩
  have hselector := h.selector?_eq hm k
  rw [hk] at hselector
  exact ⟨m, _, hk, hselector, hq⟩

theorem FiltersBy.evaluate?_ne (h : s.FiltersBy k q) {method : Method Candidates}
    (hmethod : s.selector? k = some method) {candidates prototypes chosen : Candidates}
    (hrun : method.run [candidates, prototypes] = .ok [chosen]) {c : Configuration}
    (hc : c ∈ chosen) : q.evaluate? c ≠ some false := by
  obtain ⟨m, name, -, hselector, hq⟩ := h
  obtain rfl := Option.some_inj.1 (hselector.symm.trans hmethod)
  obtain rfl := List.singleton_inj.1 (Except.ok.inj hrun)
  exact Selector.passes_of_mem_select hc q hq

/-- A cluster that decides a constraint was computed through a merge that filters by it, or from an
added cluster that decides it. -/
theorem Attuned.exists_filter_or_added (h : s.Attuned) (hm : Mirrors s.decomposition s)
    (hg : s.decomposition.Grounded) (hq : q ∈ s.selection) {id : ClusterId}
    (hd : s.decides q id = true) :
    (∃ k m, s.decomposition.merges.find? k = some m ∧ s.decomposition.LeadsTo m.output id ∧
      s.decides q m.output = true ∧ s.FiltersBy k q) ∨
    ∃ i, s.decomposition.Live i ∧ s.decomposition.determining? i = none ∧ s.decides q i = true ∧
      s.decomposition.LeadsTo i id := by
  -- The inputs of a merge are older than its output.
  induction hn : id.serial using Nat.strongRecOn generalizing id with
  | ind n ih =>
    subst hn
    cases hdet : s.decomposition.determining? id with
    | none =>
      obtain ⟨c, hc, -⟩ := decides_iff.1 hd
      exact .inr ⟨id, live_of_cluster? hc, hdet, hd, .refl⟩
    | some k =>
      obtain ⟨m, hk, rfl⟩ := find?_of_determining? hdet
      by_cases hfirst : ∀ i ∈ m.inputs, s.decides q i = false
      · exact .inl ⟨k, m, hk, .refl, hd, (h.filtersBy_iff hm hk).2 ⟨hq, hd, hfirst⟩⟩
      · obtain ⟨i, hi, hdi⟩ : ∃ i ∈ m.inputs, s.decides q i = true := by simpa using hfirst
        have hstep : s.decomposition.Feeds i m.output := ⟨k, m, hk, hi, rfl⟩
        rcases ih i.serial ((hg.merge k m hk).younger i hi) hdi rfl with
          ⟨k', m', hk', hlead, hfilter⟩ | ⟨j, hj, hdet, hdj, hlead⟩
        · exact .inl ⟨k', m', hk', hlead.tail hstep, hfilter⟩
        · exact .inr ⟨j, hj, hdet, hdj, hlead.tail hstep⟩

/-- After every run a merge filters by just the constraints of the user whose points its output has
but none of its inputs, and what its selector chooses violates none of them.  Whenever a cluster has
the points of a constraint, it was computed through a merge that filters by it, unless it is, or was
computed from, an added cluster that has these points. -/
theorem filtering_run (config : SolverConfig) (ops : List Operation) :
    let s := run config ops
    let d := s.decomposition
    (∀ k m q, d.merges.find? k = some m → (s.FiltersBy k q ↔
      q ∈ s.selection ∧ s.decides q m.output = true ∧ ∀ id ∈ m.inputs, s.decides q id = false)) ∧
    (∀ k q method candidates prototypes chosen, s.FiltersBy k q → s.selector? k = some method →
      method.run [candidates, prototypes] = .ok [chosen] →
      ∀ c ∈ chosen, q.evaluate? c ≠ some false) ∧
    ∀ q ∈ s.selection, ∀ k m, d.merges.find? k = some m → s.decides q m.output = true →
      (∃ k' m', d.merges.find? k' = some m' ∧ d.LeadsTo m'.output m.output ∧
        s.decides q m'.output = true ∧ s.FiltersBy k' q) ∨
      ∃ id, d.Live id ∧ d.determining? id = none ∧ s.decides q id = true ∧
        d.LeadsTo id m.output := by
  intro s d
  have hm : Mirrors s.decomposition s := mirrors_run config ops
  have h : s.Attuned := (attuned_run config ops).1
  refine ⟨fun k m q hk => h.filtersBy_iff hm hk, ?_, fun q hq k m _ hd => ?_⟩
  · exact fun k q method _ _ _ hfilter hmethod hrun c hc => hfilter.evaluate?_ne hmethod hrun hc
  · exact h.exists_filter_or_added hm (reachable_run config ops).sound.grounded hq hd

/-- Two sides and the angle beside them make a rigid out of three points.  The hedgehog has all
three of them too, though it says nothing of the angle that the constraint is about, so the only
merge does not filter. -/
theorem exists_unfiltered :
    ¬∀ (config : SolverConfig) (ops : List Operation) (q : SelectionConstraint) (k : MergeId)
      (m : Merge), q ∈ (run config ops).selection →
      (run config ops).decomposition.merges.find? k = some m →
      (run config ops).decides q m.output = true →
      ∃ k' m', (run config ops).decomposition.merges.find? k' = some m' ∧
        (run config ops).decomposition.LeadsTo m'.output m.output ∧
        (run config ops).decides q m'.output = true ∧ (run config ops).FiltersBy k' q := by
  intro h
  let q : SelectionConstraint := ⟨.notAcute, "a", "c", "b"⟩
  let ops : List Operation := [.add (.rigid (.ofList ["a", "b"])),
    .add (.rigid (.ofList ["b", "c"])), .add (.hedgehog "a" (.ofList ["b", "c"])), .addSelection q]
  have hselected : q ∈ (run {} ops).selection := by decide +kernel
  have hmerged : ((run {} ops).decomposition.merges.find? ⟨1⟩).any
      (fun m => (run {} ops).decides q m.output) = true := by decide +kernel
  have hnone : ∀ m ∈ (run {} ops).decomposition.merges.values,
      q ∉ (run {} ops).userConstraintsFor m := by decide +kernel
  obtain ⟨m, hm, hd⟩ := (Option.any_eq_true _ _).1 hmerged
  obtain ⟨k', m', hk', -, -, hfilter⟩ := h {} ops q ⟨1⟩ m hselected hm hd
  exact hnone m' (Registry.mem_values_iff.2 ⟨k', hk'⟩) (hfilter.mem_userConstraintsFor hk')

end Solver

end PlanarSketch
