/-
What a selector chooses.

The candidates that pass the constraints of the user are thinned out by the
prototype, if it is asked.  Then those that resemble it are chosen, or what the
fallback keeps if none does.  A single candidate is not compared with the
prototype; but it would be chosen anyway, so how many candidates there are
makes no difference (`select_eq`).  What was chosen passes, and either all of it
resembles the prototype or nothing does, so choosing again changes nothing.

* `Selector.Passes`, `Selector.Resembles`, `Selector.asked?`: the two questions
  about a candidate, and the prototype if it is asked;
* `Selector.prefer_of_exists`, `Selector.prefer_of_forall_not`,
  `Selector.prefer_prefer`: the choice by the prototype;
* `Selector.Chooses`, `Selector.chooses_select`: the law of the choice, and that
  it is the same the second time.
-/
import Mathlib.Data.List.Basic
import PlanarSketch.Selection.Selector

namespace PlanarSketch.Selector

variable {σ : Selector} {c p : Configuration} {candidates kept : List Configuration}
  {prototype : Option Configuration}

/-! ### Candidates and the prototype -/

/-- The candidate violates no constraint of the user. -/
def Passes (σ : Selector) (c : Configuration) : Prop :=
  ∀ q ∈ σ.userConstraints, q.evaluate? c ≠ some false

/-- Every question has the same answer on both; no answer for want of a point is one, too. -/
def Resembles (σ : Selector) (c p : Configuration) : Prop :=
  ∀ q ∈ σ.prototypeConstraints, q.evaluate? c = q.evaluate? p

instance (σ : Selector) (c : Configuration) : Decidable (σ.Passes c) :=
  inferInstanceAs (Decidable (∀ q ∈ σ.userConstraints, _))

instance (σ : Selector) (c p : Configuration) : Decidable (σ.Resembles c p) :=
  inferInstanceAs (Decidable (∀ q ∈ σ.prototypeConstraints, _))

/-- The prototype, if there is one and it has a say: it is in use, and there are questions to
compare answers to. -/
def asked? (σ : Selector) (prototype : Option Configuration) : Option Configuration :=
  if σ.config.usePrototype = true ∧ σ.prototypeConstraints ≠ [] then prototype else none

theorem admitted_eq : σ.admitted candidates = candidates.filter fun c => σ.Passes c := by
  refine List.filter_congr fun c _ => ?_
  rw [admits, Bool.eq_iff_iff, List.all_eq_true, decide_eq_true_eq]
  exact forall₂_congr fun _ _ => decide_eq_true_iff

theorem matching_eq : σ.matching p kept = kept.filter fun c => σ.Resembles c p := by
  refine List.filter_congr fun c _ => ?_
  rw [agrees, Bool.eq_iff_iff, List.all_eq_true, decide_eq_true_eq]
  exact forall₂_congr fun _ _ => decide_eq_true_iff

theorem asksPrototype_iff :
    σ.asksPrototype = true ↔ σ.config.usePrototype = true ∧ σ.prototypeConstraints ≠ [] := by
  simp [asksPrototype]

/-! ### The choice by the prototype -/

/-- Those that resemble the prototype are preferred. -/
theorem prefer_of_exists (h : ∃ c ∈ kept, σ.Resembles c p) :
    σ.prefer p kept = kept.filter fun c => σ.Resembles c p := by
  obtain ⟨c, hc, hres⟩ := h
  have hmem : c ∈ σ.matching p kept := by
    rw [matching_eq]
    exact List.mem_filter.2 ⟨hc, decide_eq_true hres⟩
  unfold prefer
  split
  · rename_i hnil
    rw [hnil] at hmem
    cases hmem
  · rw [matching_eq]

/-- If none does, the fallback says what is kept. -/
theorem prefer_of_forall_not (h : ∀ c ∈ kept, ¬σ.Resembles c p) :
    σ.prefer p kept =
      match σ.config.fallback with
      | .firstCandidate => kept.take 1
      | .keepAll => kept := by
  have hnil : σ.matching p kept = [] := by
    rw [matching_eq]
    exact List.filter_eq_nil_iff.2 fun c hc => mt of_decide_eq_true (h c hc)
  unfold prefer
  split
  · rfl
  · rename_i hne
    exact absurd hnil hne

theorem prefer_cases (σ : Selector) (p : Configuration) (kept : List Configuration) :
    (∃ c ∈ kept, σ.Resembles c p) ∧ σ.prefer p kept = kept.filter (fun c => σ.Resembles c p) ∨
      (∀ c ∈ kept, ¬σ.Resembles c p) ∧
        (σ.prefer p kept = kept.take 1 ∨ σ.prefer p kept = kept) := by
  by_cases h : ∃ c ∈ kept, σ.Resembles c p
  · exact .inl ⟨h, prefer_of_exists h⟩
  · have hnone : ∀ c ∈ kept, ¬σ.Resembles c p := fun c hc hres => h ⟨c, hc, hres⟩
    refine .inr ⟨hnone, ?_⟩
    rw [prefer_of_forall_not hnone]
    cases σ.config.fallback with
    | firstCandidate => exact .inl rfl
    | keepAll => exact .inr rfl

theorem prefer_sublist (σ : Selector) (p : Configuration) (kept : List Configuration) :
    (σ.prefer p kept).Sublist kept := by
  rcases prefer_cases σ p kept with ⟨-, h⟩ | ⟨-, h | h⟩ <;> rw [h]
  · exact List.filter_sublist
  · exact List.take_sublist 1 kept

/-- Something is preferred if there is anything at all. -/
theorem prefer_eq_nil_iff : σ.prefer p kept = [] ↔ kept = [] := by
  rcases prefer_cases σ p kept with ⟨⟨c, hc, hres⟩, h⟩ | ⟨-, h | h⟩ <;> rw [h]
  · refine iff_of_false (fun hnil => ?_) (List.ne_nil_of_mem hc)
    exact List.filter_eq_nil_iff.1 hnil c hc (decide_eq_true hres)
  · simp

/-- A single candidate is preferred whatever the prototype says. -/
theorem prefer_of_length_lt (h : kept.length < 2) : σ.prefer p kept = kept := by
  match kept, h with
  | [], _ => exact prefer_eq_nil_iff.2 rfl
  | [c], _ =>
    rcases prefer_cases σ p [c] with ⟨⟨c', hc, hres⟩, h⟩ | ⟨-, h | h⟩
    · obtain rfl := List.mem_singleton.1 hc
      rw [h]
      exact List.filter_eq_self.2 fun d hd => decide_eq_true (List.mem_singleton.1 hd ▸ hres)
    · exact h
    · exact h

/-- What is preferred once is preferred again. -/
theorem prefer_prefer (σ : Selector) (p : Configuration) (kept : List Configuration) :
    σ.prefer p (σ.prefer p kept) = σ.prefer p kept := by
  rcases prefer_cases σ p kept with ⟨⟨c, hc, hres⟩, h⟩ | ⟨-, h | h⟩ <;> rw [h]
  · have hmem : c ∈ kept.filter fun c => σ.Resembles c p :=
      List.mem_filter.2 ⟨hc, decide_eq_true hres⟩
    rw [prefer_of_exists ⟨c, hmem, hres⟩, List.filter_filter]
    simp only [Bool.and_self]
  · exact prefer_of_length_lt (by rw [List.length_take]; omega)
  · exact h

/-! ### The choice -/

/-- The number of candidates does not matter. -/
theorem select_eq (σ : Selector) (candidates : List Configuration)
    (prototype : Option Configuration) :
    σ.select candidates prototype =
      match σ.asked? prototype with
      | some p => σ.prefer p (σ.admitted candidates)
      | none => σ.admitted candidates := by
  unfold select asked?
  dsimp only
  by_cases hask : σ.asksPrototype = true
  · rw [if_pos (asksPrototype_iff.1 hask)]
    cases prototype with
    | none => simp
    | some p =>
      by_cases hlength : (σ.admitted candidates).length < 2
      · simp [hlength, prefer_of_length_lt]
      · simp [hlength, hask]
  · rw [if_neg (mt asksPrototype_iff.2 hask), if_pos (by simp [hask])]

theorem asked?_eq_some : σ.asked? prototype = some p ↔
    (σ.config.usePrototype = true ∧ σ.prototypeConstraints ≠ []) ∧ prototype = some p := by
  unfold asked?
  split <;> simp [*]

theorem select_of_asked (h : σ.asked? prototype = some p) :
    σ.select candidates prototype = σ.prefer p (σ.admitted candidates) := by
  rw [select_eq, h]

theorem select_of_not_asked (h : σ.asked? prototype = none) :
    σ.select candidates prototype = σ.admitted candidates := by
  rw [select_eq, h]

/-- What is chosen is chosen among the candidates that pass. -/
theorem select_sublist_admitted (σ : Selector) (candidates : List Configuration)
    (prototype : Option Configuration) :
    (σ.select candidates prototype).Sublist (σ.admitted candidates) := by
  cases h : σ.asked? prototype with
  | none => rw [select_of_not_asked h]
  | some p =>
    rw [select_of_asked h]
    exact prefer_sublist σ p _

/-- A selector only leaves candidates out. -/
theorem select_sublist (σ : Selector) (candidates : List Configuration)
    (prototype : Option Configuration) : (σ.select candidates prototype).Sublist candidates :=
  (select_sublist_admitted σ candidates prototype).trans List.filter_sublist

theorem select_eq_nil_iff :
    σ.select candidates prototype = [] ↔ σ.admitted candidates = [] := by
  cases h : σ.asked? prototype with
  | none => rw [select_of_not_asked h]
  | some p => rw [select_of_asked h, prefer_eq_nil_iff]

theorem passes_of_mem_select (h : c ∈ σ.select candidates prototype) : σ.Passes c := by
  have hmem := (select_sublist_admitted σ candidates prototype).subset h
  rw [admitted_eq] at hmem
  exact of_decide_eq_true (List.mem_filter.1 hmem).2

/-- Choosing again changes nothing. -/
theorem select_select (σ : Selector) (candidates : List Configuration)
    (prototype : Option Configuration) :
    σ.select (σ.select candidates prototype) prototype = σ.select candidates prototype := by
  have hpass : σ.admitted (σ.select candidates prototype) = σ.select candidates prototype := by
    rw [admitted_eq]
    exact List.filter_eq_self.2 fun c hc => decide_eq_true (passes_of_mem_select hc)
  cases h : σ.asked? prototype with
  | none => rw [select_of_not_asked h, hpass]
  | some p => rw [select_of_asked h, hpass, select_of_asked h, prefer_prefer]

/-- What is chosen from candidates.  The prototype `p` has a say if it is in use and given and if
there are questions to compare answers to. -/
structure Chooses (σ : Selector) (candidates : List Configuration)
    (prototype : Option Configuration) (chosen : List Configuration) : Prop where
  sublist : chosen.Sublist candidates
  passes : ∀ c ∈ chosen, σ.Passes c
  eq_nil_iff : chosen = [] ↔ ∀ c ∈ candidates, ¬σ.Passes c
  /-- If a candidate that passes resembles the prototype, just such candidates are chosen. -/
  alike : ∀ p, σ.config.usePrototype = true → σ.prototypeConstraints ≠ [] → prototype = some p →
    (∃ c ∈ candidates, σ.Passes c ∧ σ.Resembles c p) →
    chosen = candidates.filter fun c => σ.Passes c ∧ σ.Resembles c p
  /-- If none does, the fallback keeps the first candidate that passes or all of them. -/
  unlike : ∀ p, σ.config.usePrototype = true → σ.prototypeConstraints ≠ [] → prototype = some p →
    (∀ c ∈ candidates, σ.Passes c → ¬σ.Resembles c p) →
    chosen =
      match σ.config.fallback with
      | .firstCandidate => (candidates.find? fun c => σ.Passes c).toList
      | .keepAll => candidates.filter fun c => σ.Passes c
  /-- If the prototype has no say, all candidates that pass are chosen. -/
  notAsked : (σ.config.usePrototype = false ∨ σ.prototypeConstraints = [] ∨ prototype = none) →
    chosen = candidates.filter fun c => σ.Passes c

/-- A selector chooses by the law, and what it has chosen it chooses again. -/
theorem chooses_select (σ : Selector) (candidates : List Configuration)
    (prototype : Option Configuration) :
    σ.Chooses candidates prototype (σ.select candidates prototype) ∧
      σ.select (σ.select candidates prototype) prototype = σ.select candidates prototype := by
  refine ⟨⟨select_sublist .., fun c hc => passes_of_mem_select hc, ?_, ?_, ?_, ?_⟩,
    select_select ..⟩
  · -- Nothing is chosen just if nothing passes.
    rw [select_eq_nil_iff, admitted_eq, List.filter_eq_nil_iff]
    simp
  · -- The prototype has a say, and a candidate that passes resembles it.
    rintro p huse hquestions hp ⟨c, hc, hpass, hres⟩
    have hmem : c ∈ σ.admitted candidates := by
      rw [admitted_eq]
      exact List.mem_filter.2 ⟨hc, decide_eq_true hpass⟩
    rw [select_of_asked (asked?_eq_some.2 ⟨⟨huse, hquestions⟩, hp⟩),
      prefer_of_exists ⟨c, hmem, hres⟩, admitted_eq, List.filter_filter]
    simp only [Bool.decide_and, Bool.and_comm]
  · -- It has a say, and none does: the fallback decides.
    intro p huse hquestions hp hnone
    have hnone' : ∀ c ∈ σ.admitted candidates, ¬σ.Resembles c p := by
      intro c hc
      rw [admitted_eq] at hc
      obtain ⟨hc, hpass⟩ := List.mem_filter.1 hc
      exact hnone c hc (of_decide_eq_true hpass)
    rw [select_of_asked (asked?_eq_some.2 ⟨⟨huse, hquestions⟩, hp⟩), prefer_of_forall_not hnone',
      admitted_eq, List.take_one, List.head?_filter]
  · -- It has no say.
    intro hno
    have hnone : σ.asked? prototype = none := by
      rcases hno with huse | hquestions | hp
      · simp [asked?, huse]
      · simp [asked?, hquestions]
      · simp [asked?, hp]
    rw [select_of_not_asked hnone, admitted_eq]

end PlanarSketch.Selector
