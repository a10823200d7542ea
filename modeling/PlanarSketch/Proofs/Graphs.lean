/-
Graphs change in both directions at once.

A graph keeps the successors and the predecessors of its vertices apart.  Every
change touches both, so they go on telling of the same edges, and what a
change does is said once by what it does to weights and vertices.

* `weight?_addEdge`, `Linked.weight?_removeVertex` and the like: weights after
  each change;
* `Linked`: successors and predecessors agree, kept by every change
  (`Linked.addEdge`, `Linked.removeVertex`);
* `Shows`: what vertices and edges a graph has, through every change;
* `lengthen`, `walk?_lengthen`: a step of the search for a path;
* `Linked.isSome_path?`: the search finds a path if there is one.
-/
import Mathlib.Data.List.Perm.Subperm
import Mathlib.Logic.Relation
import PlanarSketch.Graph.Search

namespace PlanarSketch

namespace Graph

variable {V E : Type} [DecidableEq V] {g : Graph V E} {a b v x y : V} {w : E}

/-! ### Vertices and weights -/

theorem weight?_eq (g : Graph V E) (a b : V) :
    g.weight? a b = (g.forward.find? a).bind fun out => out.find? b :=
  rfl

theorem ingoing_eq (g : Graph V E) (v : V) :
    g.ingoing v = ((g.backward.find? v).map OrderedSet.toList).getD [] := by
  unfold ingoing
  cases g.backward.find? v <;> rfl

theorem hasVertex_iff : g.hasVertex v = true ↔ v ∈ g.vertices := OrderedMap.contains_iff ..

theorem hasEdge_iff : g.hasEdge a b = true ↔ ∃ w, g.weight? a b = some w := Option.isSome_iff_exists

theorem mem_outgoing : b ∈ g.outgoing a ↔ g.hasEdge a b = true := by
  unfold outgoing hasEdge
  rw [weight?_eq]
  cases g.forward.find? a with
  | none => simp
  | some out =>
    dsimp only [Option.bind_some]
    rw [OrderedMap.isSome_find?, OrderedMap.contains_iff]

theorem nodup_outgoing (g : Graph V E) (v : V) : (g.outgoing v).Nodup := by
  unfold outgoing
  split
  · exact OrderedMap.nodup_keys _
  · exact List.nodup_nil

theorem weight?_of_not_hasVertex (h : g.hasVertex a = false) : g.weight? a b = none := by
  have ha : g.forward.find? a = none := by
    rw [OrderedMap.find?_eq_none, ← OrderedMap.contains_iff, Bool.not_eq_true]
    exact h
  rw [weight?_eq, ha]
  rfl

/-- Successors and predecessors tell of the same edges, and edges join vertices. -/
structure Linked (g : Graph V E) : Prop where
  keys : g.backward.keys = g.forward.keys
  ingoing : ∀ a b, a ∈ g.ingoing b ↔ g.hasEdge a b = true
  target : ∀ a b, g.hasEdge a b = true → g.hasVertex b = true

theorem linked_empty : (empty : Graph V E).Linked where
  keys := rfl
  ingoing := fun a b => by simp [Graph.ingoing, hasEdge, weight?_eq, empty, OrderedMap.empty,
    OrderedMap.find?, OrderedMap.lookup]
  target := fun a b h => by cases h

theorem Linked.source (h : g.hasEdge a b = true) : g.hasVertex a = true := by
  rw [← Bool.not_eq_false]
  intro ha
  rw [hasEdge, weight?_of_not_hasVertex ha] at h
  cases h

theorem Linked.weight?_of_not_hasVertex (h : g.Linked) (hb : g.hasVertex b = false) :
    g.weight? a b = none := by
  rw [← Option.not_isSome_iff_eq_none]
  intro hedge
  rw [h.target a b hedge] at hb
  cases hb

theorem Linked.find?_of_not_hasVertex (h : g.Linked) (hv : g.hasVertex v = false) :
    g.backward.find? v = none := by
  rw [OrderedMap.find?_eq_none, h.keys, ← OrderedMap.contains_iff, Bool.not_eq_true]
  exact hv

/-! ### Adding vertices -/

@[simp] theorem hasVertex_addVertex :
    (g.addVertex v).hasVertex x = true ↔ x = v ∨ g.hasVertex x = true := by
  unfold addVertex
  split
  · rename_i hv
    exact ⟨.inr, fun h => h.elim (fun e => e ▸ hv) id⟩
  · show (g.forward.insert v .empty).contains x = true ↔ _
    rw [OrderedMap.contains_iff, OrderedMap.mem_keys_insert, hasVertex_iff]
    rfl

@[simp] theorem weight?_addVertex (g : Graph V E) (v x y : V) :
    (g.addVertex v).weight? x y = g.weight? x y := by
  by_cases hv : g.hasVertex v = true
  · rw [addVertex, if_pos hv]
  · rw [addVertex, if_neg hv]
    show ((g.forward.insert v .empty).find? x).bind _ = _
    rw [OrderedMap.find?_insert]
    split
    · rename_i he
      rw [← he, weight?_of_not_hasVertex (by simpa using hv)]
      rfl
    · rfl

@[simp] theorem hasEdge_addVertex (g : Graph V E) (v x y : V) :
    (g.addVertex v).hasEdge x y = g.hasEdge x y := by
  rw [hasEdge, weight?_addVertex, hasEdge]

theorem Linked.ingoing_addVertex (h : g.Linked) (v x : V) :
    (g.addVertex v).ingoing x = g.ingoing x := by
  by_cases hv : g.hasVertex v = true
  · rw [addVertex, if_pos hv]
  · rw [addVertex, if_neg hv, ingoing_eq, ingoing_eq]
    show (((g.backward.insert v .empty).find? x).map OrderedSet.toList).getD [] = _
    rw [OrderedMap.find?_insert]
    split
    · rename_i he
      rw [← he, h.find?_of_not_hasVertex (by simpa using hv)]
      rfl
    · rfl

theorem Linked.addVertex (h : g.Linked) (v : V) : (g.addVertex v).Linked where
  keys := by
    unfold Graph.addVertex
    split
    · exact h.keys
    · show (g.backward.insert v .empty).keys = (g.forward.insert v .empty).keys
      rw [OrderedMap.keys_insert, OrderedMap.keys_insert, h.keys]
  ingoing := fun a b => by rw [h.ingoing_addVertex, hasEdge_addVertex, h.ingoing]
  target := fun a b hab => by
    rw [hasEdge_addVertex] at hab
    exact hasVertex_addVertex.2 (.inr (h.target a b hab))

/-! ### Adding edges -/

theorem forward_addEdge (g : Graph V E) (a b : V) (w : E) : (g.addEdge a b w).forward =
    ((g.addVertex a).addVertex b).forward.modify a fun out => out.insert b w := by
  unfold addEdge
  dsimp only
  split <;> rfl

theorem backward_addEdge (g : Graph V E) (a b : V) (w : E) : (g.addEdge a b w).backward =
    ((g.addVertex a).addVertex b).backward.modify b fun ins => ins.insert a := by
  unfold addEdge
  dsimp only
  split <;> rfl

@[simp] theorem hasVertex_addEdge : (g.addEdge a b w).hasVertex x = true ↔
    x = a ∨ x = b ∨ g.hasVertex x = true := by
  rw [hasVertex, forward_addEdge, OrderedMap.contains_iff, OrderedMap.keys_modify,
    ← OrderedMap.contains_iff]
  show ((g.addVertex a).addVertex b).hasVertex x = true ↔ _
  rw [hasVertex_addVertex, hasVertex_addVertex]
  exact or_left_comm

/-- An edge that is added has its weight, and the others keep theirs. -/
theorem weight?_addEdge (g : Graph V E) (a b x y : V) (w : E) :
    (g.addEdge a b w).weight? x y = if x = a ∧ y = b then some w else g.weight? x y := by
  have hbase : g.weight? x y = ((g.addVertex a).addVertex b).weight? x y := by simp
  have ha : ((g.addVertex a).addVertex b).hasVertex a = true := by simp
  rw [hbase]
  generalize hg' : (g.addVertex a).addVertex b = g' at ha
  rw [weight?_eq, forward_addEdge, hg', OrderedMap.find?_modify, weight?_eq]
  by_cases hx : a = x
  · subst hx
    have hsome : (g'.forward.find? a).isSome = true := by rwa [OrderedMap.isSome_find?]
    obtain ⟨out, hout⟩ := Option.isSome_iff_exists.1 hsome
    simp only [if_true, hout, Option.map_some, Option.bind_some, OrderedMap.find?_insert, true_and,
      eq_comm (a := b)]
  · rw [if_neg hx, if_neg fun h => hx h.1.symm]

theorem hasEdge_addEdge : (g.addEdge a b w).hasEdge x y = true ↔
    x = a ∧ y = b ∨ g.hasEdge x y = true := by
  rw [hasEdge, weight?_addEdge]
  split
  · rename_i h
    exact iff_of_true rfl (.inl h)
  · rename_i h
    exact ⟨.inr, fun h' => h'.resolve_left h⟩

theorem Linked.mem_ingoing_addEdge (h : g.Linked) : x ∈ (g.addEdge a b w).ingoing y ↔
    x = a ∧ y = b ∨ x ∈ g.ingoing y := by
  have hl : ((g.addVertex a).addVertex b).Linked := (h.addVertex a).addVertex b
  have hin : g.ingoing y = ((g.addVertex a).addVertex b).ingoing y := by
    rw [(h.addVertex a).ingoing_addVertex, h.ingoing_addVertex]
  have hb : ((g.addVertex a).addVertex b).hasVertex b = true := by simp
  rw [hin]
  generalize hg' : (g.addVertex a).addVertex b = g' at hl hb
  rw [ingoing_eq, backward_addEdge, hg', OrderedMap.find?_modify, ingoing_eq]
  -- Only the entry of `b` in the backward map changes, and `b` is a vertex by now.
  by_cases hy : b = y
  · subst hy
    have hsome : (g'.backward.find? b).isSome = true := by
      rw [OrderedMap.isSome_find?, OrderedMap.contains_iff, hl.keys]
      exact hasVertex_iff.1 hb
    obtain ⟨ins, hins⟩ := Option.isSome_iff_exists.1 hsome
    simp [hins]
  · rw [if_neg hy]
    exact ⟨.inr, fun h => h.resolve_left fun e => hy e.2.symm⟩

theorem Linked.addEdge (h : g.Linked) (a b : V) (w : E) : (g.addEdge a b w).Linked where
  keys := by
    rw [backward_addEdge, forward_addEdge, OrderedMap.keys_modify, OrderedMap.keys_modify]
    exact ((h.addVertex a).addVertex b).keys
  ingoing := fun x y => by rw [h.mem_ingoing_addEdge, hasEdge_addEdge, h.ingoing]
  target := fun x y hxy => by
    rw [hasVertex_addEdge]
    rcases hasEdge_addEdge.1 hxy with ⟨-, rfl⟩ | hxy
    · exact .inr (.inl rfl)
    · exact .inr (.inr (h.target x y hxy))

/-- Adding edges of one weight, one by one. -/
theorem Linked.foldl_addEdge {α : Type} (h : g.Linked) (source target : α → V) (w : E)
    (l : List α) :
    (l.foldl (fun g e => g.addEdge (source e) (target e) w) g).Linked ∧
      (∀ x, (l.foldl (fun g e => g.addEdge (source e) (target e) w) g).hasVertex x = true ↔
        (∃ e ∈ l, x = source e ∨ x = target e) ∨ g.hasVertex x = true) ∧
      ∀ x y, (l.foldl (fun g e => g.addEdge (source e) (target e) w) g).weight? x y =
        if ∃ e ∈ l, x = source e ∧ y = target e then some w else g.weight? x y := by
  induction l generalizing g with
  | nil => exact ⟨h, fun _ => by simp, fun x y => by simp⟩
  | cons e rest ih =>
    obtain ⟨hl, hv, hw⟩ := ih (h.addEdge (source e) (target e) w)
    refine ⟨hl, fun x => ?_, fun x y => ?_⟩
    · rw [List.foldl_cons, hv, hasVertex_addEdge, List.exists_mem_cons_iff,
        or_comm (a := x = source e ∨ x = target e), or_assoc, or_assoc]
    · rw [List.foldl_cons, hw, weight?_addEdge]
      by_cases he : x = source e ∧ y = target e
      · simp [he]
      · simp [he]

/-! ### Removing edges -/

@[simp] theorem hasVertex_removeEdge (g : Graph V E) (a b x : V) :
    (g.removeEdge a b).hasVertex x = g.hasVertex x := by
  unfold removeEdge
  split
  · show (g.forward.modify a _).contains x = g.forward.contains x
    simp only [OrderedMap.contains, OrderedMap.keys_modify]
  · rfl

/-- An edge that is removed has no weight, and the others keep theirs. -/
theorem weight?_removeEdge (g : Graph V E) (a b x y : V) :
    (g.removeEdge a b).weight? x y = if x = a ∧ y = b then none else g.weight? x y := by
  unfold removeEdge
  split
  · show ((g.forward.modify a _).find? x).bind _ = _
    rw [OrderedMap.find?_modify, weight?_eq]
    -- Only the row of `a` loses an entry.
    by_cases hx : a = x
    · subst hx
      cases g.forward.find? a with
      | none => simp
      | some out =>
        simp only [if_true, Option.map_some, Option.bind_some, OrderedMap.find?_erase, true_and,
          eq_comm (a := b)]
    · rw [if_neg hx, if_neg fun h => hx h.1.symm]
  · rename_i hno
    split
    · rename_i he
      rw [he.1, he.2, ← Option.not_isSome_iff_eq_none]
      exact hno
    · rfl

theorem hasEdge_removeEdge : (g.removeEdge a b).hasEdge x y = true ↔
    g.hasEdge x y = true ∧ ¬(x = a ∧ y = b) := by
  rw [hasEdge, weight?_removeEdge]
  split
  · rename_i h
    exact iff_of_false (by simp) fun h' => h'.2 h
  · rename_i h
    exact (and_iff_left h).symm

theorem Linked.mem_ingoing_removeEdge (h : g.Linked) : x ∈ (g.removeEdge a b).ingoing y ↔
    x ∈ g.ingoing y ∧ ¬(x = a ∧ y = b) := by
  unfold removeEdge
  split
  · rw [ingoing_eq, ingoing_eq]
    show x ∈ (((g.backward.modify b _).find? y).map OrderedSet.toList).getD [] ↔ _
    rw [OrderedMap.find?_modify]
    by_cases hy : b = y
    · subst hy
      cases g.backward.find? b <;> simp
    · rw [if_neg hy]
      exact (and_iff_left fun e => hy e.2.symm).symm
  · rename_i hno
    refine (and_iff_left_of_imp fun hx e => hno ?_).symm
    rw [← e.1, ← e.2]
    exact (h.ingoing x y).1 hx

theorem Linked.removeEdge (h : g.Linked) (a b : V) : (g.removeEdge a b).Linked where
  keys := by
    unfold Graph.removeEdge
    split
    · show (g.backward.modify b _).keys = (g.forward.modify a _).keys
      rw [OrderedMap.keys_modify, OrderedMap.keys_modify, h.keys]
    · exact h.keys
  ingoing := fun x y => by rw [h.mem_ingoing_removeEdge, hasEdge_removeEdge, h.ingoing]
  target := fun x y hxy => by
    rw [hasVertex_removeEdge]
    exact h.target x y (hasEdge_removeEdge.1 hxy).1

/-! ### Removing vertices -/

/-- Removing edges one by one. -/
theorem Linked.foldl_removeEdge {α : Type} (h : g.Linked) (source target : α → V) (l : List α) :
    (l.foldl (fun g e => g.removeEdge (source e) (target e)) g).Linked ∧
      (∀ x, (l.foldl (fun g e => g.removeEdge (source e) (target e)) g).hasVertex x =
        g.hasVertex x) ∧
      ∀ x y, (l.foldl (fun g e => g.removeEdge (source e) (target e)) g).weight? x y =
        if ∃ e ∈ l, x = source e ∧ y = target e then none else g.weight? x y := by
  induction l generalizing g with
  | nil => exact ⟨h, fun _ => rfl, fun x y => by simp⟩
  | cons e rest ih =>
    obtain ⟨hl, hv, hw⟩ := ih (h.removeEdge (source e) (target e))
    refine ⟨hl, fun x => ?_, fun x y => ?_⟩
    · rw [List.foldl_cons, hv, hasVertex_removeEdge]
    · rw [List.foldl_cons, hw, weight?_removeEdge]
      by_cases he : x = source e ∧ y = target e
      · simp [he]
      · simp [he]

/-- Without its edges a vertex is alone. -/
theorem Linked.isolate (h : g.Linked) (v : V) :
    ((g.isolateForward v).isolateBackward v).Linked ∧
      (∀ x, ((g.isolateForward v).isolateBackward v).hasVertex x = g.hasVertex x) ∧
      ∀ x y, ((g.isolateForward v).isolateBackward v).weight? x y =
        if x = v ∨ y = v then none else g.weight? x y := by
  obtain ⟨h₁, hv₁, hw₁⟩ := h.foldl_removeEdge (fun _ => v) id (g.outgoing v)
  obtain ⟨h₂, hv₂, hw₂⟩ := h₁.foldl_removeEdge id (fun _ => v) ((g.isolateForward v).ingoing v)
  refine ⟨h₂, fun x => (hv₂ x).trans (hv₁ x), fun x y => (hw₂ x y).trans ?_⟩
  -- What is left after the first pass has no edge from the vertex, so the second pass takes the
  -- edges to it.
  have hout : ∀ x y, (g.isolateForward v).weight? x y = if x = v then none else g.weight? x y := by
    intro x y
    refine (hw₁ x y).trans ?_
    by_cases hx : x = v
    · subst hx
      by_cases hy : y ∈ g.outgoing x
      · rw [if_pos ⟨y, hy, rfl, rfl⟩, if_pos rfl]
      · rw [if_neg fun ⟨e, he, _, hye⟩ => hy (hye ▸ he), if_pos rfl,
          ← Option.not_isSome_iff_eq_none]
        exact fun hedge => hy (mem_outgoing.2 hedge)
    · rw [if_neg fun ⟨e, _, hxe, _⟩ => hx hxe, if_neg hx]
  show (if ∃ e ∈ (g.isolateForward v).ingoing v, x = e ∧ y = v then none
    else (g.isolateForward v).weight? x y) = _
  by_cases hy : y = v
  · rw [if_pos (.inr hy : x = v ∨ y = v)]
    split
    · rfl
    · rename_i hno
      rw [← Option.not_isSome_iff_eq_none, hy]
      exact fun hedge => hno ⟨x, (h₁.ingoing x v).2 hedge, rfl, hy⟩
  · rw [if_neg fun ⟨_, _, _, h⟩ => hy h, hout]
    simp only [hy, or_false]

theorem Linked.hasVertex_removeVertex (h : g.Linked) :
    (g.removeVertex v).hasVertex x = true ↔ x ≠ v ∧ g.hasVertex x = true := by
  unfold removeVertex
  split
  · show (((g.isolateForward v).isolateBackward v).forward.erase v).contains x = true ↔ _
    rw [OrderedMap.contains_iff, OrderedMap.mem_keys_erase, and_comm, ← (h.isolate v).2.1 x,
      hasVertex_iff]
    rfl
  · rename_i hv
    refine (and_iff_right_of_imp ?_).symm
    rintro hx rfl
    exact hv hx

/-- A vertex goes with all its edges, and the others keep theirs. -/
theorem Linked.weight?_removeVertex (h : g.Linked) (v x y : V) :
    (g.removeVertex v).weight? x y = if x = v ∨ y = v then none else g.weight? x y := by
  unfold removeVertex
  split
  · -- The vertex is isolated first, so erasing its row loses no other edge.
    rw [← (h.isolate v).2.2 x y]
    show ((((g.isolateForward v).isolateBackward v).forward.erase v).find? x).bind _ = _
    rw [OrderedMap.find?_erase]
    split
    · rename_i hx
      rw [(h.isolate v).2.2, if_pos (.inl hx.symm)]
      rfl
    · rfl
  · rename_i hv
    have hv' : g.hasVertex v = false := by simpa using hv
    split
    · rename_i he
      rcases he with rfl | rfl
      · exact Graph.weight?_of_not_hasVertex hv'
      · exact h.weight?_of_not_hasVertex hv'
    · rfl

theorem Linked.hasEdge_removeVertex (h : g.Linked) : (g.removeVertex v).hasEdge x y = true ↔
    g.hasEdge x y = true ∧ x ≠ v ∧ y ≠ v := by
  rw [hasEdge, h.weight?_removeVertex]
  split
  · rename_i he
    exact iff_of_false (by simp) fun h' => he.elim h'.2.1 h'.2.2
  · rename_i he
    exact (and_iff_left (not_or.1 he)).symm

theorem Linked.mem_ingoing_removeVertex (h : g.Linked) : x ∈ (g.removeVertex v).ingoing y ↔
    x ∈ g.ingoing y ∧ x ≠ v ∧ y ≠ v := by
  obtain ⟨hl, hv, hw⟩ := h.isolate v
  unfold removeVertex
  split
  · -- Once isolated, the vertex is an ingoing neighbour of none.
    rw [ingoing_eq]
    show x ∈ (((((g.isolateForward v).isolateBackward v).backward.erase v).find? y).map
      OrderedSet.toList).getD [] ↔ _
    rw [OrderedMap.find?_erase]
    split
    · rename_i hy
      exact iff_of_false List.not_mem_nil fun h' => h'.2.2 hy.symm
    · rename_i hy
      rw [← ingoing_eq, hl.ingoing, h.ingoing, hasEdge, hw]
      split
      · rename_i he
        exact iff_of_false (by simp) fun h' => he.elim h'.2.1 h'.2.2
      · rename_i he
        exact (and_iff_left (not_or.1 he)).symm
  · rename_i hv
    -- A vertex that is missing is at neither end of an edge.
    refine (and_iff_left_of_imp fun hx => ⟨?_, ?_⟩).symm
    · rintro rfl
      exact hv (Linked.source ((h.ingoing x y).1 hx))
    · rintro rfl
      exact hv (h.target x y ((h.ingoing x y).1 hx))

theorem Linked.removeVertex (h : g.Linked) (v : V) : (g.removeVertex v).Linked where
  keys := by
    unfold Graph.removeVertex
    split
    · show (((g.isolateForward v).isolateBackward v).backward.erase v).keys =
        (((g.isolateForward v).isolateBackward v).forward.erase v).keys
      rw [OrderedMap.keys_erase, OrderedMap.keys_erase, (h.isolate v).1.keys]
    · exact h.keys
  ingoing := fun x y => by rw [h.mem_ingoing_removeVertex, h.hasEdge_removeVertex, h.ingoing]
  target := fun x y hxy => by
    obtain ⟨hxy, -, hy⟩ := h.hasEdge_removeVertex.1 hxy
    exact h.hasVertex_removeVertex.2 ⟨hy, h.target x y hxy⟩

/-! ### Contents -/

/-- The graph has just the vertices of `P` and the edges of `T`. -/
structure Shows (g : Graph V E) (P : V → Prop) (T : V → E → V → Prop) : Prop where
  linked : g.Linked
  vertex : ∀ x, g.hasVertex x = true ↔ P x
  edge : ∀ x t y, g.weight? x y = some t ↔ T x t y

variable {P P' : V → Prop} {T T' : V → E → V → Prop}

theorem Shows.congr (h : g.Shows P T) (hP : ∀ x, P x ↔ P' x) (hT : ∀ x t y, T x t y ↔ T' x t y) :
    g.Shows P' T' :=
  ⟨h.linked, fun x => (h.vertex x).trans (hP x), fun x t y => (h.edge x t y).trans (hT x t y)⟩

theorem Shows.hasEdge_iff (h : g.Shows P T) : g.hasEdge x y = true ↔ ∃ t, T x t y := by
  rw [Graph.hasEdge_iff]
  exact exists_congr fun t => h.edge x t y

theorem Shows.ends (h : g.Shows P T) {t : E} (ht : T x t y) : P x ∧ P y := by
  have hedge := h.hasEdge_iff.2 ⟨t, ht⟩
  exact ⟨(h.vertex x).1 (Linked.source hedge), (h.vertex y).1 (h.linked.target x y hedge)⟩

theorem shows_empty : (empty : Graph V E).Shows (fun _ => False) fun _ _ _ => False :=
  ⟨linked_empty, fun _ => by simp [hasVertex, empty], fun _ _ _ => ⟨nofun, False.elim⟩⟩

theorem Shows.addVertex (h : g.Shows P T) (v : V) :
    (g.addVertex v).Shows (fun x => x = v ∨ P x) T :=
  ⟨h.linked.addVertex v, fun x => by rw [hasVertex_addVertex, h.vertex],
    fun x t y => by rw [weight?_addVertex, h.edge]⟩

/-- An edge that is new, or has its weight already. -/
theorem Shows.addEdge (h : g.Shows P T) (hw : ∀ t, T a t b → t = w) :
    (g.addEdge a b w).Shows (fun x => x = a ∨ x = b ∨ P x)
      fun x t y => x = a ∧ t = w ∧ y = b ∨ T x t y := by
  refine ⟨h.linked.addEdge a b w, fun x => by rw [hasVertex_addEdge, h.vertex], fun x t y => ?_⟩
  rw [weight?_addEdge]
  split
  · rename_i hxy
    rw [hxy.1, hxy.2, Option.some_inj, eq_comm]
    exact ⟨fun e => .inl ⟨rfl, e, rfl⟩, fun he => he.elim (fun he => he.2.1) (hw t)⟩
  · rename_i hxy
    rw [h.edge, or_iff_right fun he => hxy ⟨he.1, he.2.2⟩]

theorem Shows.foldl_addEdge {α : Type} (h : g.Shows P T) (source target : α → V) (w : E)
    (l : List α) (hw : ∀ e ∈ l, ∀ t, T (source e) t (target e) → t = w) :
    (l.foldl (fun g e => g.addEdge (source e) (target e) w) g).Shows
      (fun x => (∃ e ∈ l, x = source e ∨ x = target e) ∨ P x)
      fun x t y => (∃ e ∈ l, x = source e ∧ t = w ∧ y = target e) ∨ T x t y := by
  obtain ⟨hl, hv, he⟩ := h.linked.foldl_addEdge source target w l
  refine ⟨hl, fun x => by rw [hv, h.vertex], fun x t y => ?_⟩
  rw [he]
  split
  · rename_i hxy
    obtain ⟨e, hmem, rfl, rfl⟩ := hxy
    rw [Option.some_inj, eq_comm]
    exact ⟨fun ht => .inl ⟨e, hmem, rfl, ht, rfl⟩,
      fun ht => ht.elim (fun ⟨_, _, _, ht, _⟩ => ht) (hw e hmem t)⟩
  · rename_i hxy
    rw [h.edge, or_iff_right fun ⟨e, hmem, hx, _, hy⟩ => hxy ⟨e, hmem, hx, hy⟩]

theorem Shows.foldl_removeEdge {α : Type} (h : g.Shows P T) (source target : α → V) (l : List α) :
    (l.foldl (fun g e => g.removeEdge (source e) (target e)) g).Shows P
      fun x t y => T x t y ∧ ¬∃ e ∈ l, x = source e ∧ y = target e := by
  obtain ⟨hl, hv, he⟩ := h.linked.foldl_removeEdge source target l
  refine ⟨hl, fun x => by rw [hv, h.vertex], fun x t y => ?_⟩
  rw [he]
  split
  · rename_i hxy
    exact iff_of_false nofun fun ht => ht.2 hxy
  · rename_i hxy
    rw [h.edge, and_iff_left hxy]

theorem Shows.removeEdge (h : g.Shows P T) (a b : V) :
    (g.removeEdge a b).Shows P fun x t y => T x t y ∧ ¬(x = a ∧ y = b) :=
  (h.foldl_removeEdge (fun _ : Unit => a) (fun _ => b) [()]).congr (fun _ => Iff.rfl)
    fun x t y => by simp

/-- A vertex goes with its edges. -/
theorem Shows.removeVertex (h : g.Shows P T) (v : V) :
    (g.removeVertex v).Shows (fun x => x ≠ v ∧ P x) fun x t y => T x t y ∧ x ≠ v ∧ y ≠ v := by
  refine ⟨h.linked.removeVertex v, fun x => by rw [h.linked.hasVertex_removeVertex, h.vertex],
    fun x t y => ?_⟩
  rw [h.linked.weight?_removeVertex]
  split
  · rename_i hxy
    exact iff_of_false nofun fun ht => hxy.elim ht.2.1 ht.2.2
  · rename_i hxy
    rw [h.edge, and_iff_left (not_or.1 hxy)]

end Graph

/-! ### Paths -/

section Paths

variable {V E : Type} [DecidableEq V] {next : V → List V} {target : V} {all : List V}

/-- A walk that is found ends where something in the queue leads. -/
theorem exists_of_walk? {n : Nat} {seen : List V} {queue : List (List V)} {p : List V}
    (h : walk? next target n seen queue = some p) : ∃ v back, v :: back ∈ queue ∧
      Relation.ReflTransGen (fun a b => b ∈ next a) v target := by
  induction n generalizing seen queue with
  | zero => cases h
  | succ n ih =>
    match queue, h with
    | [], h => cases h
    | [] :: queue, h =>
      rw [walk?] at h
      obtain ⟨v, back, hmem, hlead⟩ := ih h
      exact ⟨v, back, List.mem_cons_of_mem _ hmem, hlead⟩
    | (v :: back) :: queue, h =>
      rw [walk?] at h
      split at h
      · rename_i he
        exact ⟨v, back, List.mem_cons_self, he ▸ .refl⟩
      · obtain ⟨u, back', hmem, hlead⟩ := ih h
        rcases List.mem_append.1 hmem with hmem | hmem
        · exact ⟨u, back', List.mem_cons_of_mem _ hmem, hlead⟩
        · -- A walk that was made longer starts with a step from the vertex in front.
          obtain ⟨w, hw, he⟩ := List.mem_map.1 hmem
          obtain ⟨rfl, -⟩ := List.cons.inj he
          exact ⟨v, back, List.mem_cons_self, .head (List.mem_filter.1 hw).1 hlead⟩

/-- The walks that are left when the first one has been made longer by every vertex that is new.
Each stands with its end apart from the rest. -/
def lengthen (next : V → List V) (done : List V) (v : V) (back : List V)
    (rest : List (V × List V)) : List (V × List V) :=
  rest ++ ((next v).filter (· ∉ done ++ v :: rest.map Prod.fst)).map fun w => (w, v :: back)

/-- What has been seen is what is done and, in the same order, the ends of the walks in the queue.
So it stays while the search goes on. -/
theorem walk?_lengthen {n : Nat} {done : List V} {v : V} {back : List V}
    {rest : List (V × List V)} (hv : v ≠ target) :
    walk? next target (n + 1) (done ++ v :: rest.map Prod.fst)
        ((v :: back) :: rest.map fun q => q.1 :: q.2) =
      walk? next target n ((done ++ [v]) ++ (lengthen next done v back rest).map Prod.fst)
        ((lengthen next done v back rest).map fun q => q.1 :: q.2) := by
  rw [walk?, if_neg hv]
  simp [lengthen, Function.comp_def]

theorem mem_lengthen {done : List V} {v : V} {back : List V} {rest : List (V × List V)}
    {e : V × List V} : e ∈ lengthen next done v back rest ↔ e ∈ rest ∨
      e.2 = v :: back ∧ e.1 ∈ next v ∧ e.1 ∉ done ++ v :: rest.map Prod.fst := by
  unfold lengthen
  simp only [List.mem_append, List.mem_map, List.mem_filter, decide_eq_true_eq]
  refine or_congr_right ?_
  constructor
  · rintro ⟨w, hw, rfl⟩
    exact ⟨rfl, hw⟩
  · rintro ⟨hback, hw⟩
    exact ⟨e.1, hw, Prod.ext rfl hback.symm⟩

theorem ends_lengthen (next : V → List V) (done : List V) (v : V) (back : List V)
    (rest : List (V × List V)) :
    (done ++ [v]) ++ (lengthen next done v back rest).map Prod.fst =
      (done ++ v :: rest.map Prod.fst) ++
        (next v).filter (· ∉ done ++ v :: rest.map Prod.fst) := by
  simp [lengthen, Function.comp_def]

/-- Every successor of the vertex in front has been seen afterwards, and nothing is forgotten. -/
theorem mem_ends_lengthen {done : List V} {v : V} {back : List V} {rest : List (V × List V)}
    {w : V} : w ∈ (done ++ [v]) ++ (lengthen next done v back rest).map Prod.fst ↔
      w ∈ done ++ v :: rest.map Prod.fst ∨ w ∈ next v := by
  rw [ends_lengthen, List.mem_append, List.mem_filter, decide_eq_true_eq]
  tauto

theorem nodup_ends_lengthen {done : List V} {v : V} {back : List V} {rest : List (V × List V)}
    (hnext : (next v).Nodup) (hnodup : (done ++ v :: rest.map Prod.fst).Nodup) :
    ((done ++ [v]) ++ (lengthen next done v back rest).map Prod.fst).Nodup := by
  rw [ends_lengthen, List.nodup_append]
  refine ⟨hnodup, hnext.filter _, fun u hu w hw e => ?_⟩
  have hnew := of_decide_eq_true (List.mem_filter.1 hw).2
  exact hnew (e ▸ hu)

/-- A search that finds no walk has seen all that can be reached. -/
theorem not_reaches_of_walk? (hnext : ∀ v, (next v).Nodup)
    (hall : ∀ v ∈ all, ∀ w ∈ next v, w ∈ all) {n : Nat} {done : List V} {walks : List (V × List V)}
    (hnodup : (done ++ walks.map Prod.fst).Nodup) (hsub : ∀ v ∈ done ++ walks.map Prod.fst, v ∈ all)
    (hclosed : ∀ v ∈ done, ∀ w ∈ next v, w ∈ done ++ walks.map Prod.fst) (htarget : target ∉ done)
    (hn : all.length ≤ done.length + n)
    (h : walk? next target n (done ++ walks.map Prod.fst) (walks.map fun q => q.1 :: q.2) = none) :
    ∀ v ∈ done ++ walks.map Prod.fst,
      ¬Relation.ReflTransGen (fun a b => b ∈ next a) v target := by
  -- Once the queue is empty, what was seen is closed under steps and lacks the target.
  have hend : ∀ done : List V, (∀ v ∈ done, ∀ w ∈ next v, w ∈ done) → target ∉ done →
      ∀ v ∈ done, ¬Relation.ReflTransGen (fun a b => b ∈ next a) v target := by
    intro done hclosed htarget v hv hlead
    have hreached : ∀ u, Relation.ReflTransGen (fun a b => b ∈ next a) v u → u ∈ done := by
      intro u hu
      induction hu with
      | refl => exact hv
      | tail _ hstep ih => exact hclosed _ ih _ hstep
    exact htarget (hreached target hlead)
  induction n generalizing done walks with
  | zero =>
    have hlength := (List.subperm_of_subset hnodup hsub).length_le
    have hnil : walks = [] := by
      rw [List.length_append, List.length_map] at hlength
      exact List.length_eq_zero_iff.1 (by omega)
    subst hnil
    simp only [List.map_nil, List.append_nil] at hclosed ⊢
    exact hend done hclosed htarget
  | succ n ih =>
    match walks with
    | [] =>
      simp only [List.map_nil, List.append_nil] at hclosed ⊢
      exact hend done hclosed htarget
    | (v, back) :: rest =>
      simp only [List.map_cons] at h hnodup hsub hclosed ⊢
      have hv : v ≠ target := by
        rintro rfl
        rw [walk?, if_pos rfl] at h
        cases h
      rw [walk?_lengthen hv] at h
      have hdone : v ∈ done ++ v :: rest.map Prod.fst :=
        List.mem_append_right _ List.mem_cons_self
      intro u hu
      refine ih (nodup_ends_lengthen (hnext v) hnodup) (fun w hw => ?_) (fun w hw x hx => ?_)
        (fun hmem => ?_) ?_ h u (mem_ends_lengthen.2 (.inl hu))
      · exact (mem_ends_lengthen.1 hw).elim (hsub w) fun hw => hall v (hsub v hdone) w hw
      · refine mem_ends_lengthen.2 ?_
        rcases List.mem_append.1 hw with hw | hw
        · exact .inl (hclosed w hw x hx)
        · exact .inr (List.mem_singleton.1 hw ▸ hx)
      · rcases List.mem_append.1 hmem with hmem | hmem
        · exact htarget hmem
        · exact hv (List.mem_singleton.1 hmem).symm
      · rw [List.length_append, List.length_singleton]
        omega

/-- There is a path between two vertices if edges lead from one to the other. -/
theorem Graph.Linked.isSome_path? {g : Graph V E} (h : g.Linked) {a b : V} :
    (g.path? a b).isSome = true ↔ g.hasVertex a = true ∧ g.hasVertex b = true ∧
      Relation.ReflTransGen (fun x y => g.hasEdge x y = true) a b := by
  have hedge : (fun x y => g.hasEdge x y = true) = fun x y => y ∈ g.outgoing x := by
    funext x y
    exact propext Graph.mem_outgoing.symm
  rw [hedge]
  unfold Graph.path?
  split
  · rename_i hab
    rw [Bool.and_eq_true] at hab
    rw [and_iff_right hab.1, and_iff_right hab.2]
    constructor
    · -- What the walk has met is reached from where it started.
      intro hsome
      obtain ⟨p, hp⟩ := Option.isSome_iff_exists.1 hsome
      obtain ⟨v, back, hmem, hlead⟩ := exists_of_walk? hp
      obtain ⟨rfl, -⟩ := List.cons.inj (List.mem_singleton.1 hmem)
      exact hlead
    · -- The walk has steps for all vertices, so if it ends without a path it has met all that `a`
      -- reaches.
      intro hlead
      rw [Option.isSome_iff_ne_none]
      intro hnone
      have hstart : ([] ++ [(a, ([] : List V))].map Prod.fst).Nodup := by simp
      have hall : ∀ v ∈ g.vertices, ∀ w ∈ g.outgoing v, w ∈ g.vertices := fun v _ w hw =>
        Graph.hasVertex_iff.1 (h.target v w (Graph.mem_outgoing.1 hw))
      refine not_reaches_of_walk? g.nodup_outgoing hall hstart (fun v hv => ?_)
        (fun v hv => absurd hv List.not_mem_nil) List.not_mem_nil ?_ hnone a List.mem_cons_self
        hlead
      · rw [List.mem_singleton.1 hv]
        exact Graph.hasVertex_iff.1 hab.1
      · exact Nat.le_of_eq ((OrderedMap.length_keys _).trans (Nat.zero_add _).symm)
  · rename_i hab
    -- A missing vertex has no path at all, not even to itself.
    refine iff_of_false (by simp) fun h' => hab ?_
    rw [h'.1, h'.2.1]
    rfl

end Paths

end PlanarSketch
