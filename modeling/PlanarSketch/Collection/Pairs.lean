/-
The unordered pairs of a list.

Main statements:
* `mem_pairs_iff`: the pairs are the sublists of two elements;
* `length_pairs`: there are as many as a set of that size has pairs.
-/
namespace PlanarSketch

variable {α : Type}

/-- Every element with every later one, in lexicographic order of the places. -/
def pairs : List α → List (α × α)
  | [] => []
  | a :: rest => rest.map (fun b => (a, b)) ++ pairs rest

@[simp] theorem pairs_nil : pairs ([] : List α) = [] := rfl

@[simp] theorem pairs_cons (a : α) (rest : List α) :
    pairs (a :: rest) = rest.map (fun b => (a, b)) ++ pairs rest := rfl

/-- A pair of the list is a sublist of length two. -/
theorem mem_pairs_iff {a b : α} {l : List α} : (a, b) ∈ pairs l ↔ [a, b].Sublist l := by
  induction l with
  | nil => simp
  | cons c rest ih =>
    rw [pairs_cons, List.mem_append, List.mem_map, ih]
    constructor
    · rintro (⟨d, hd, he⟩ | h)
      · obtain ⟨rfl, rfl⟩ := Prod.mk.inj he
        exact (List.singleton_sublist.2 hd).cons_cons c
      · exact h.cons c
    · intro h
      cases h with
      | cons _ h => exact .inr h
      | cons_cons _ h => exact .inl ⟨b, List.singleton_sublist.1 h, rfl⟩

/-- Twice the number of pairs of `n` elements is `n * (n - 1)`. -/
theorem length_pairs (l : List α) : 2 * (pairs l).length = l.length * (l.length - 1) := by
  induction l with
  | nil => rfl
  | cons a rest ih =>
    simp only [pairs_cons, List.length_append, List.length_map, List.length_cons,
      Nat.add_sub_cancel]
    cases hn : rest.length with
    | zero =>
      rw [hn] at ih
      simp at ih ⊢
      exact ih
    | succ n =>
      rw [hn] at ih
      simp only [Nat.add_sub_cancel] at ih
      rw [Nat.mul_add, ih]
      grind

end PlanarSketch
