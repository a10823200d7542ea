/-
Finite sets of point names.

A point is known by its name, a string.  A set of names is kept as its sorted
list, so two sets with the same members are equal, and enumeration is in the
order of the names, code point by code point.

Main statements:
* `ext_mem`: a set is determined by its members;
* `mem_ofList`, `mem_insert`, `mem_union`, `mem_inter`, `mem_erase`,
  `mem_filter`: membership after each operation.
-/
namespace PlanarSketch

/-- The name of a point. -/
abbrev PointName := String

/-- A finite set of names, kept sorted. -/
structure NameSet where
  /-- The names in increasing order. -/
  toList : List PointName
  /-- The order is strict, so no name stands twice. -/
  sorted : toList.Pairwise (· < ·)
deriving DecidableEq

namespace NameSet

/-- The set without names. -/
def empty : NameSet := ⟨[], List.Pairwise.nil⟩

instance : Inhabited NameSet := ⟨empty⟩

instance : Membership PointName NameSet := ⟨fun s a => a ∈ s.toList⟩

instance (s : NameSet) (a : PointName) : Decidable (a ∈ s) :=
  inferInstanceAs (Decidable (a ∈ s.toList))

@[simp] theorem mem_toList {s : NameSet} {a : PointName} : a ∈ s.toList ↔ a ∈ s := Iff.rfl

@[simp] theorem not_mem_empty (a : PointName) : a ∉ empty := List.not_mem_nil

/-- The number of names. -/
def size (s : NameSet) : Nat := s.toList.length

/-- Whether there is no name. -/
def isEmpty (s : NameSet) : Bool := s.toList.isEmpty

/-- Whether `a` is one of the names. -/
def contains (s : NameSet) (a : PointName) : Bool := decide (a ∈ s)

@[simp] theorem contains_iff {s : NameSet} {a : PointName} : s.contains a = true ↔ a ∈ s := by
  simp [contains]

theorem nodup_toList (s : NameSet) : s.toList.Nodup :=
  s.sorted.imp (by
    intro a b h e
    subst e
    exact String.lt_irrefl a h)

/-- A sorted list is determined by its members. -/
theorem eq_of_sorted {l k : List PointName} (hl : l.Pairwise (· < ·)) (hk : k.Pairwise (· < ·))
    (h : ∀ a, a ∈ l ↔ a ∈ k) : l = k := by
  induction l generalizing k with
  | nil => exact (List.eq_nil_iff_forall_not_mem.2 fun a ha => by simpa using (h a).2 ha).symm
  | cons a l ih =>
    cases k with
    | nil => simpa using (h a).1 List.mem_cons_self
    | cons b k =>
      obtain ⟨hal, hl'⟩ := List.pairwise_cons.1 hl
      obtain ⟨hbk, hk'⟩ := List.pairwise_cons.1 hk
      -- The heads are the least members of both lists.
      have hab : a = b := by
        rcases List.mem_cons.1 ((h a).1 List.mem_cons_self) with e | ha
        · exact e
        · rcases List.mem_cons.1 ((h b).2 List.mem_cons_self) with e | hb
          · exact e.symm
          · exact absurd (String.lt_trans (hal b hb) (hbk a ha)) (String.lt_irrefl a)
      subst hab
      congr 1
      refine ih hl' hk' fun c => ?_
      -- What is left out on one side is not the head, which is smaller than every later member.
      have hc := h c
      rw [List.mem_cons, List.mem_cons] at hc
      constructor
      · intro hcl
        refine (hc.1 (.inr hcl)).resolve_left fun e => ?_
        exact String.lt_irrefl a (e ▸ hal c hcl)
      · intro hck
        refine (hc.2 (.inr hck)).resolve_left fun e => ?_
        exact String.lt_irrefl a (e ▸ hbk c hck)

/-- Two sets with the same members are equal. -/
theorem ext_mem {s t : NameSet} (h : ∀ a, a ∈ s ↔ a ∈ t) : s = t := by
  have hl := eq_of_sorted s.sorted t.sorted h
  cases s
  cases t
  simpa using hl

/-! ### Building -/

/-- Puts a name at its place in a sorted list. -/
def place (a : PointName) : List PointName → List PointName
  | [] => [a]
  | b :: rest => if a < b then a :: b :: rest else if a = b then b :: rest else b :: place a rest

theorem mem_place {a c : PointName} {l : List PointName} : c ∈ place a l ↔ c = a ∨ c ∈ l := by
  induction l with
  | nil => simp [place]
  | cons b rest ih =>
    unfold place
    split
    · simp
    · split
      · rename_i h
        subst h
        simp
      · simp only [List.mem_cons, ih]
        grind

theorem pairwise_place {a : PointName} {l : List PointName} (h : l.Pairwise (· < ·)) :
    (place a l).Pairwise (· < ·) := by
  induction l with
  | nil => simp [place]
  | cons b rest ih =>
    obtain ⟨hb, hr⟩ := List.pairwise_cons.1 h
    unfold place
    split
    · rename_i hab
      -- The new name comes first.
      refine List.pairwise_cons.2 ⟨fun c hc => ?_, h⟩
      rcases List.mem_cons.1 hc with rfl | hc
      · exact hab
      · exact String.lt_trans hab (hb c hc)
    · rename_i hab
      split
      · exact h
      · rename_i hne
        -- It comes later, and is greater than the head.
        refine List.pairwise_cons.2 ⟨fun c hc => ?_, ih hr⟩
        rcases mem_place.1 hc with rfl | hc
        · exact Std.lt_of_le_of_ne (String.not_lt.1 hab) fun e => hne e.symm
        · exact hb c hc

/-- Adds a name. -/
def insert (s : NameSet) (a : PointName) : NameSet := ⟨place a s.toList, pairwise_place s.sorted⟩

@[simp] theorem mem_insert {s : NameSet} {a b : PointName} : b ∈ s.insert a ↔ b = a ∨ b ∈ s :=
  mem_place

/-- The names of a list. -/
def ofList (l : List PointName) : NameSet := l.foldl insert empty

theorem mem_foldl_insert {l : List PointName} {s : NameSet} {a : PointName} :
    a ∈ l.foldl insert s ↔ a ∈ s ∨ a ∈ l := by
  induction l generalizing s with
  | nil => simp
  | cons b rest ih =>
    rw [List.foldl_cons, ih, mem_insert, List.mem_cons]
    grind

@[simp] theorem mem_ofList {l : List PointName} {a : PointName} : a ∈ ofList l ↔ a ∈ l := by
  simp [ofList, mem_foldl_insert]

/-- The names for which `p` holds. -/
def filter (s : NameSet) (p : PointName → Bool) : NameSet := ⟨s.toList.filter p, s.sorted.filter p⟩

@[simp] theorem mem_filter {s : NameSet} {p : PointName → Bool} {a : PointName} :
    a ∈ s.filter p ↔ a ∈ s ∧ p a = true :=
  List.mem_filter

/-- Takes a name out. -/
def erase (s : NameSet) (a : PointName) : NameSet := s.filter fun b => b ≠ a

@[simp] theorem mem_erase {s : NameSet} {a b : PointName} : b ∈ s.erase a ↔ b ∈ s ∧ b ≠ a := by
  simp [erase]

/-- The names of either set. -/
def union (s t : NameSet) : NameSet := t.toList.foldl insert s

instance : Union NameSet := ⟨union⟩

@[simp] theorem mem_union {s t : NameSet} {a : PointName} : a ∈ s ∪ t ↔ a ∈ s ∨ a ∈ t :=
  mem_foldl_insert

/-- The names of both sets. -/
def inter (s t : NameSet) : NameSet := s.filter fun a => a ∈ t

instance : Inter NameSet := ⟨inter⟩

@[simp] theorem mem_inter {s t : NameSet} {a : PointName} : a ∈ s ∩ t ↔ a ∈ s ∧ a ∈ t := by
  show a ∈ s.filter _ ↔ _
  simp

/-! ### Comparing -/

instance : HasSubset NameSet := ⟨fun s t => ∀ a ∈ s, a ∈ t⟩

theorem subset_def {s t : NameSet} : s ⊆ t ↔ ∀ a ∈ s, a ∈ t := Iff.rfl

instance (s t : NameSet) : Decidable (s ⊆ t) :=
  inferInstanceAs (Decidable (∀ a ∈ s.toList, a ∈ t))

/-- Whether the sets have no name in common. -/
def Disjoint (s t : NameSet) : Prop := ∀ a ∈ s, a ∉ t

instance (s t : NameSet) : Decidable (s.Disjoint t) :=
  inferInstanceAs (Decidable (∀ a ∈ s.toList, a ∉ t))

/-- The only name of a set with exactly one. -/
def only? (s : NameSet) : Option PointName :=
  match s.toList with
  | [a] => some a
  | _ => none

end NameSet

end PlanarSketch
