/-
What colourings cut, and what greedy orders say about it.

A cut is read as a colouring of the vertices in two colours, and weighs what
joins vertices of different colours.  The order in which a phase takes the
vertices is greedy.  By induction along it, a vertex that is about to be taken
has at most the tie that the cut of the vertices up to it weighs, whenever its
colour differs from that of the vertex taken before.  So no colouring that
tells the last two vertices apart weighs less than the last tie.

* `WeightTable.cutWeight`: what a colouring cuts, with what it becomes when a
  vertex is added (`WeightTable.cutWeight_insert`), two are joined
  (`WeightTable.cutWeight_contract`) or a weight is added
  (`WeightTable.cutWeight_addBoth`);
* `Greedy`: orders in which each vertex has a strongest tie to those before,
  `greedy_sweep`;
* `Greedy.tie_last`, `Greedy.tie_le`: what the last tie is, and what it is at
  most.
-/
import Mathlib.Algebra.BigOperators.Group.Finset.Piecewise
import Mathlib.Algebra.Order.BigOperators.Group.Finset
import Mathlib.Algebra.Order.Ring.Rat
import Mathlib.Tactic.Linarith
import PlanarSketch.Proofs.Phases

namespace PlanarSketch

open CutGroup WeightTable

variable {W : Type} {n steps : ℕ}

/-! ### Tables -/

section Sums

variable [AddCommMonoid W] {w : WeightTable W n} {side : Fin n → Bool} {s : Finset (Fin n)}
  {i j z prev last : Fin n} {x : W}

namespace WeightTable

theorem between_addBoth (hij : i ≠ j) (w : WeightTable W n) (x : W) (k l : Fin n) :
    (w.addBoth i j x).between k l = w.between k l +
      ((if k = i ∧ l = j then x else 0) + if k = j ∧ l = i then x else 0) := by
  rw [addBoth, if_neg hij, between_ofFn]
  by_cases h : k = i ∧ l = j
  · have h' : ¬(k = j ∧ l = i) := fun h' => hij (h.1.symm.trans h'.1)
    rw [if_pos (.inl h), if_pos h, if_neg h', add_zero]
  by_cases h' : k = j ∧ l = i
  · rw [if_pos (.inr h'), if_neg h, if_pos h', zero_add]
  · rw [if_neg (not_or.2 ⟨h, h'⟩), if_neg h, if_neg h', add_zero, add_zero]

/-- The weights do not depend on the direction. -/
def Symmetric (w : WeightTable W n) : Prop := ∀ i j, w.between i j = w.between j i

theorem Symmetric.addBoth (hw : w.Symmetric) (i j : Fin n) (x : W) :
    (w.addBoth i j x).Symmetric := by
  by_cases hij : i = j
  · simpa [WeightTable.addBoth, hij] using hw
  · intro k l
    rw [between_addBoth hij, between_addBoth hij, hw k l, add_comm (if k = i ∧ l = j then x else 0)]
    simp only [and_comm]

theorem Symmetric.contract (hw : w.Symmetric) (prev last : Fin n) :
    (w.contract prev last).Symmetric := by
  intro k l
  rw [between_contract, between_contract]
  by_cases hk : k = prev <;> by_cases hl : l = prev <;> simp [hk, hl, hw k l]

/-! ### Ties and cuts -/

/-- The tie of a vertex to a set of vertices. -/
def tieTo (w : WeightTable W n) (s : Finset (Fin n)) (v : Fin n) : W := ∑ q ∈ s, w.between q v

/-- The weight between the vertices of different colours in a set. -/
def cutWeight (w : WeightTable W n) (side : Fin n → Bool) (s : Finset (Fin n)) : W :=
  ∑ a ∈ s with side a = true, ∑ b ∈ s with side b = false, w.between a b

/-- The vertices of a set whose colour differs from that of `z`. -/
def across (side : Fin n → Bool) (s : Finset (Fin n)) (z : Fin n) : Finset (Fin n) :=
  {q ∈ s | side q ≠ side z}

theorem across_insert {v : Fin n} (hside : side z ≠ side v) :
    across side (insert z s) v = insert z (across side s v) := by
  rw [across, Finset.filter_insert, if_pos hside, across]

theorem tieTo_insert (hz : z ∉ s) (v : Fin n) :
    w.tieTo (insert z s) v = w.tieTo s v + w.between z v := by
  rw [tieTo, Finset.sum_insert hz, add_comm, tieTo]

/-- One more vertex adds its tie to the vertices of the other colour. -/
theorem cutWeight_insert (hw : w.Symmetric) (hz : z ∉ s) :
    w.cutWeight side (insert z s) = w.cutWeight side s + w.tieTo (across side s z) z := by
  cases hside : side z with
  | true =>
    have hacross : across side s z = {b ∈ s | side b = false} := by simp [across, hside]
    rw [cutWeight, Finset.filter_insert, Finset.filter_insert, if_pos hside,
      if_neg (by simp [hside]), Finset.sum_insert (by simp [hz]), hacross, add_comm, cutWeight,
      tieTo]
    exact congrArg _ (Finset.sum_congr rfl fun b _ => hw z b)
  | false =>
    have hacross : across side s z = {a ∈ s | side a = true} := by simp [across, hside]
    rw [cutWeight, Finset.filter_insert, Finset.filter_insert, if_neg (by simp [hside]),
      if_pos hside, hacross, cutWeight, tieTo, add_comm, ← Finset.sum_add_distrib]
    exact Finset.sum_congr rfl fun a _ => Finset.sum_insert (by simp [hz])

theorem cutWeight_congr {w' : WeightTable W n}
    (h : ∀ a ∈ s, ∀ b ∈ s, w.between a b = w'.between a b) :
    w.cutWeight side s = w'.cutWeight side s :=
  Finset.sum_congr rfl fun a ha => Finset.sum_congr rfl fun b hb =>
    h a (Finset.mem_of_mem_filter a ha) b (Finset.mem_of_mem_filter b hb)

/-- A vertex alone in its colour is cut off with its tie to the others. -/
theorem cutWeight_eq_tieTo (hw : w.Symmetric) (hz : z ∈ s)
    (hside : ∀ q ∈ s, side q = true ↔ q = z) :
    w.cutWeight side s = w.tieTo (s.erase z) z := by
  have htrue : ({a ∈ s | side a = true} : Finset (Fin n)) = {z} := by
    ext a
    rw [Finset.mem_filter, Finset.mem_singleton]
    exact ⟨fun h => (hside a h.1).1 h.2, fun h => ⟨h ▸ hz, (hside a (h ▸ hz)).2 h⟩⟩
  have hfalse : ({b ∈ s | side b = false} : Finset (Fin n)) = s.erase z := by
    ext b
    rw [Finset.mem_filter, Finset.mem_erase, ← Bool.not_eq_true, and_comm]
    exact and_congr_left fun h => (hside b h).not
  rw [cutWeight, htrue, hfalse, Finset.sum_singleton, tieTo]
  exact Finset.sum_congr rfl fun b _ => hw z b

/-- Joining two vertices of one colour leaves the weight of the cut. -/
theorem cutWeight_contract (hw : w.Symmetric) (hprev : prev ∈ s) (hlast : last ∈ s)
    (hne : prev ≠ last) (hside : side prev = side last) :
    (w.contract prev last).cutWeight side (s.erase last) = w.cutWeight side s := by
  -- Both sets are what is left without the two, and then one or both of them.
  obtain ⟨rest, hrest, hp, hl⟩ : ∃ rest, s.erase last = insert prev rest ∧ prev ∉ rest ∧
      last ∉ insert prev rest := by
    have hback := Finset.insert_erase (Finset.mem_erase.2 ⟨hne, hprev⟩)
    refine ⟨(s.erase last).erase prev, hback.symm, Finset.notMem_erase prev _, ?_⟩
    rw [hback]
    exact Finset.notMem_erase last s
  have hs : s = insert last (insert prev rest) := by rw [← hrest, Finset.insert_erase hlast]
  have hne_prev : ∀ a ∈ rest, a ≠ prev := fun a ha => ne_of_mem_of_not_mem ha hp
  have hkept : (w.contract prev last).cutWeight side rest = w.cutWeight side rest :=
    cutWeight_congr fun a ha b hb => by
      rw [between_contract, if_neg (hne_prev a ha), if_neg (hne_prev b hb)]
  have hlast_across : across side (insert prev rest) last = across side rest prev := by
    simp [across, Finset.filter_insert, hside]
  have htie : (w.contract prev last).tieTo (across side rest prev) prev =
      w.tieTo (across side rest prev) prev + w.tieTo (across side rest prev) last := by
    rw [tieTo, tieTo, tieTo, ← Finset.sum_add_distrib]
    refine Finset.sum_congr rfl fun a ha => ?_
    rw [between_contract, if_neg (hne_prev a (Finset.mem_of_mem_filter a ha)), if_pos rfl,
      hw prev a, hw last a]
  rw [hrest, hs, cutWeight_insert (hw.contract prev last) hp, cutWeight_insert hw hl,
    cutWeight_insert hw hp, hkept, htie, hlast_across, add_assoc]

/-- One entry of a double sum. -/
theorem sum_sum_ite_pair (A B : Finset (Fin n)) (i j : Fin n) (x : W) :
    (∑ a ∈ A, ∑ b ∈ B, if a = i ∧ b = j then x else 0) = if i ∈ A ∧ j ∈ B then x else 0 := by
  simp [ite_and, Finset.sum_ite_eq']

/-- A weight between two vertices adds to the cuts that tell them apart. -/
theorem cutWeight_addBoth (w : WeightTable W n) (side : Fin n → Bool) (i j : Fin n) (x : W) :
    (w.addBoth i j x).cutWeight side Finset.univ =
      w.cutWeight side Finset.univ + if side i ≠ side j then x else 0 := by
  by_cases hij : i = j
  · simp [addBoth, hij]
  simp only [cutWeight, between_addBoth hij, Finset.sum_add_distrib, sum_sum_ite_pair,
    Finset.mem_filter, Finset.mem_univ, true_and]
  cases side i <;> cases side j <;> simp

end WeightTable

end Sums

/-! ### Greedy orders -/

section Order

variable {w : WeightTable ℚ n} {side : Fin n → Bool} {taken : Finset (Fin n)}
  {order before ws : List (Waiting ℚ n)} {t prev last : Waiting ℚ n}

/-- No weight is negative. -/
def WeightTable.Nonneg (w : WeightTable ℚ n) : Prop := ∀ i j, 0 ≤ w.between i j

theorem WeightTable.Nonneg.addBoth (hw : w.Nonneg) (i j : Fin n) {x : ℚ} (hx : 0 ≤ x) :
    (w.addBoth i j x).Nonneg := by
  by_cases hij : i = j
  · simpa [WeightTable.addBoth, hij] using hw
  · intro k l
    rw [between_addBoth hij]
    have hkl := hw k l
    split <;> split <;> linarith

theorem WeightTable.Nonneg.contract (hw : w.Nonneg) (prev last : Fin n) :
    (w.contract prev last).Nonneg := by
  intro k l
  rw [between_contract]
  split
  · split
    · exact le_rfl
    · exact add_nonneg (hw prev l) (hw last l)
  · split
    · exact add_nonneg (hw prev k) (hw last k)
    · exact hw k l

theorem WeightTable.Nonneg.tieTo (hw : w.Nonneg) (s : Finset (Fin n)) (v : Fin n) :
    0 ≤ w.tieTo s v := Finset.sum_nonneg fun q _ => hw q v

theorem WeightTable.Nonneg.cutWeight (hw : w.Nonneg) (side : Fin n → Bool) (s : Finset (Fin n)) :
    0 ≤ w.cutWeight side s :=
  Finset.sum_nonneg fun a _ => Finset.sum_nonneg fun b _ => hw a b

/-- The vertices of a list, without their ties. -/
def vertexSet (ws : List (Waiting ℚ n)) : Finset (Fin n) := (ws.map Waiting.vertex).toFinset

theorem union_vertexSet_cons (taken : Finset (Fin n)) (x : Waiting ℚ n)
    (rest : List (Waiting ℚ n)) :
    taken ∪ vertexSet (x :: rest) = insert x.vertex taken ∪ vertexSet rest := by
  simp [vertexSet, Finset.insert_union]

/-- An order that continues after the vertices in `taken`.  Each vertex comes with its tie to those
before it, and none of the later ones is tied to these more strongly. -/
inductive Greedy (w : WeightTable ℚ n) : Finset (Fin n) → List (Waiting ℚ n) → Prop where
  | nil (taken : Finset (Fin n)) : Greedy w taken []
  | cons {taken : Finset (Fin n)} {x : Waiting ℚ n} {rest : List (Waiting ℚ n)}
      (fresh : x.vertex ∉ taken) (tie : x.tie = w.tieTo taken x.vertex)
      (strongest : ∀ y ∈ rest, w.tieTo taken y.vertex ≤ x.tie)
      (next : Greedy w (insert x.vertex taken) rest) : Greedy w taken (x :: rest)

theorem le_strongest (first : Waiting ℚ n) (rest : List (Waiting ℚ n)) :
    ∀ y ∈ first :: rest, y.tie ≤ (strongest first rest).tie := by
  induction rest generalizing first with
  | nil =>
    intro y hy
    rw [List.mem_singleton.1 hy]
    exact le_rfl
  | cons x rest ih =>
    intro y hy
    rw [strongest_cons]
    -- The better of the first two stands for both.
    have hboth : first.tie ≤ (if first.tie < x.tie then x else first).tie ∧
        x.tie ≤ (if first.tie < x.tie then x else first).tie := by
      split
      · rename_i hlt
        exact ⟨hlt.le, le_rfl⟩
      · rename_i hlt
        exact ⟨le_rfl, not_lt.1 hlt⟩
    have hbest := ih (if first.tie < x.tie then x else first)
    rcases List.mem_cons.1 hy with rfl | hy
    · exact hboth.1.trans (hbest _ (List.mem_cons_self ..))
    rcases List.mem_cons.1 hy with rfl | hy
    · exact hboth.2.trans (hbest _ (List.mem_cons_self ..))
    · exact hbest y (List.mem_cons_of_mem _ hy)

/-- A sweep takes the vertices in a greedy order. -/
theorem greedy_sweep (hws : (ws.map Waiting.vertex).Nodup) (hsteps : ws.length ≤ steps)
    (hfresh : ∀ x ∈ ws, x.vertex ∉ taken) (htie : ∀ x ∈ ws, x.tie = w.tieTo taken x.vertex) :
    Greedy w taken (sweep w steps ws) := by
  induction steps generalizing ws taken with
  | zero => exact .nil taken
  | succ steps ih =>
    cases ws with
    | nil => exact .nil taken
    | cons first rest =>
      have hmem := strongest_mem first rest
      have hlength := length_stillWaiting (w := w) hws hmem
      have hleft := nodup_stillWaiting w (strongest first rest) hws
      rw [sweep_cons]
      refine .cons (hfresh _ hmem) (htie _ hmem) ?_ (ih hleft (by omega) ?_ ?_)
      · intro y hy
        -- Whoever comes later was waiting when the strongest one was taken.
        have hvertex := (perm_sweep w hleft (by omega)).subset (List.mem_map_of_mem hy)
        rw [map_vertex_stillWaiting] at hvertex
        obtain ⟨y', hy', heq⟩ := List.mem_map.1 (List.mem_of_mem_filter hvertex)
        rw [← heq, ← htie y' hy']
        exact le_strongest first rest y' hy'
      -- Those that still wait are none of those taken, and their ties have grown by the one just
      -- taken.
      all_goals
        intro y hy
        obtain ⟨y', hy', rfl⟩ := List.mem_map.1 hy
        obtain ⟨hy', hne⟩ := List.mem_filter.1 hy'
      · simpa [hfresh y' hy'] using hne
      · rw [tieTo_insert (hfresh _ hmem), htie y' hy']

theorem Greedy.fresh (h : Greedy w taken order) : ∀ y ∈ order, y.vertex ∉ taken := by
  induction h with
  | nil => simp
  | cons fresh tie strongest next ih =>
    intro y hy
    rcases List.mem_cons.1 hy with rfl | hy
    · exact fresh
    · exact fun hmem => ih y hy (Finset.mem_insert_of_mem hmem)

/-- The last vertex comes with its tie to all others. -/
theorem Greedy.tie_last (h : Greedy w taken (before ++ [last])) :
    last.vertex ∉ taken ∪ vertexSet before ∧
      last.tie = w.tieTo (taken ∪ vertexSet before) last.vertex := by
  induction before generalizing taken with
  | nil =>
    cases h with
    | cons fresh tie strongest next => simpa [vertexSet] using ⟨fresh, tie⟩
  | cons x before ih =>
    cases h with
    | cons fresh tie strongest next =>
      rw [union_vertexSet_cons]
      exact ih next

/-- What the cut of the vertices up to one of the order weighs bounds its tie, if its colour differs
from that of the vertex before. -/
theorem Greedy.tie_le_of_bound (hw : w.Symmetric) (hnonneg : w.Nonneg) (h : Greedy w taken order)
    (hbound : ∀ y ∈ order, side y.vertex ≠ side t.vertex →
      w.tieTo taken y.vertex ≤ w.cutWeight side (insert y.vertex taken))
    (horder : t :: order = before ++ [prev, last]) (hside : side last.vertex ≠ side prev.vertex) :
    last.tie ≤ w.cutWeight side (taken ∪ vertexSet order) := by
  induction h generalizing t before with
  | nil taken =>
    have hlength := congrArg List.length horder
    simp at hlength
  | @cons taken x rest fresh tie strongest next ih =>
    cases before with
    | nil =>
      obtain ⟨rfl, rfl, rfl⟩ : t = prev ∧ x = last ∧ rest = [] := by simpa using horder
      have hlast := hbound x (List.mem_cons_self ..) hside
      rw [tie]
      simpa [vertexSet, Finset.union_insert] using hlast
    | cons b before =>
      have hrest : x :: rest = before ++ [prev, last] := (List.cons_eq_cons.1 horder).2
      rw [union_vertexSet_cons]
      refine ih (fun y hy hyx => ?_) hrest
      have hy_next := next.fresh y hy
      have hy_taken : y.vertex ∉ taken := fun hmem => hy_next (Finset.mem_insert_of_mem hmem)
      have hx_across : x.vertex ∉ across side taken y.vertex :=
        fun hmem => fresh (Finset.mem_of_mem_filter _ hmem)
      rw [tieTo_insert fresh, cutWeight_insert hw hy_next, cutWeight_insert hw fresh,
        across_insert hyx.symm, tieTo_insert hx_across]
      have hx_nonneg := hnonneg.tieTo (across side taken x.vertex) x.vertex
      have hy_nonneg := hnonneg.tieTo (across side taken y.vertex) y.vertex
      by_cases hyt : side y.vertex = side t.vertex
      · -- Then `x` differs from the vertex before it, and is tied at least as strongly as `y`.
        have hx := hbound x (List.mem_cons_self ..) (fun hxt => hyx (hyt.trans hxt.symm))
        rw [cutWeight_insert hw fresh, ← tie] at hx
        have hyx_tie := strongest y hy
        linarith
      · have hy' := hbound y (List.mem_cons_of_mem _ hy) hyt
        rw [cutWeight_insert hw hy_taken] at hy'
        linarith

/-- The last tie of a greedy order is at most the weight of any colouring that tells the last two
vertices apart. -/
theorem Greedy.tie_le (hw : w.Symmetric) (hnonneg : w.Nonneg) (h : Greedy w ∅ order)
    (horder : order = before ++ [prev, last]) (hside : side last.vertex ≠ side prev.vertex) :
    last.tie ≤ w.cutWeight side (vertexSet order) := by
  -- Before the first vertex the bound is zero, so anything may stand for a vertex taken before it.
  have hbound : ∀ y ∈ order, side y.vertex ≠ side last.vertex →
      w.tieTo ∅ y.vertex ≤ w.cutWeight side (insert y.vertex ∅) :=
    fun y _ _ => by simpa [WeightTable.tieTo] using hnonneg.cutWeight side {y.vertex}
  have hfront : last :: order = (last :: before) ++ [prev, last] := by
    rw [horder, List.cons_append]
  have hle := h.tie_le_of_bound hw hnonneg hbound hfront hside
  rwa [Finset.empty_union] at hle

end Order

end PlanarSketch
