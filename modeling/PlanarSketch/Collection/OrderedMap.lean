/-
Maps that remember the order in which their keys first arrived.

A map is a list of entries without a repeated key.  Writing to a key that is
present keeps its place, writing to a new key appends it, and erasing closes
the gap, so every enumeration is by age.

Main statements:
* `keys_insert`, `keys_insertNew`, `keys_erase`: what each operation does to
  the order of the keys;
* `find?_insert_self`, `find?_insert_of_ne`, `find?_erase_self`,
  `find?_erase_of_ne`: what each operation does to look-ups.
-/
namespace PlanarSketch

/-- A finite map whose entries stand in order of arrival. -/
@[ext]
structure OrderedMap (α β : Type) where
  /-- The entries, oldest key first. -/
  entries : List (α × β)
  /-- No key stands twice. -/
  nodup : (entries.map Prod.fst).Nodup

namespace OrderedMap

variable {α β : Type}

/-! ### Views -/

/-- The map without entries. -/
def empty : OrderedMap α β := ⟨[], List.nodup_nil⟩

instance : Inhabited (OrderedMap α β) := ⟨empty⟩

/-- The keys, oldest first. -/
def keys (m : OrderedMap α β) : List α := m.entries.map Prod.fst

/-- The values, in the order of their keys. -/
def values (m : OrderedMap α β) : List β := m.entries.map Prod.snd

/-- The number of entries. -/
def size (m : OrderedMap α β) : Nat := m.entries.length

theorem nodup_keys (m : OrderedMap α β) : m.keys.Nodup := m.nodup

@[simp] theorem keys_empty : (empty : OrderedMap α β).keys = [] := rfl

@[simp] theorem length_keys (m : OrderedMap α β) : m.keys.length = m.size := by
  simp [keys, size]

/-- Every value through `f`, the keys as they are. -/
def mapValues {γ : Type} (m : OrderedMap α β) (f : β → γ) : OrderedMap α γ where
  entries := m.entries.map fun e => (e.1, f e.2)
  nodup := by
    have h : ((m.entries.map fun e => (e.1, f e.2)).map Prod.fst) = m.keys := by
      simp [keys, Function.comp_def]
    rw [h]
    exact m.nodup

@[simp] theorem keys_mapValues {γ : Type} (m : OrderedMap α β) (f : β → γ) :
    (m.mapValues f).keys = m.keys := by
  simp [keys, mapValues, Function.comp_def]

variable [DecidableEq α]

/-- Whether the key is present. -/
def contains (m : OrderedMap α β) (k : α) : Bool := decide (k ∈ m.keys)

@[simp] theorem contains_iff (m : OrderedMap α β) (k : α) : m.contains k = true ↔ k ∈ m.keys := by
  simp [contains]

/-- The value of the first entry with key `k`. -/
def lookup (k : α) : List (α × β) → Option β
  | [] => none
  | (k', v) :: rest => if k' = k then some v else lookup k rest

/-- The value at a key, if it is present. -/
def find? (m : OrderedMap α β) (k : α) : Option β := lookup k m.entries

theorem lookup_eq_none {k : α} {l : List (α × β)} : lookup k l = none ↔ k ∉ l.map Prod.fst := by
  induction l with
  | nil => simp [lookup]
  | cons e rest ih =>
    by_cases h : e.1 = k
    · simp [lookup, h]
    · simp [lookup, h, ih, Ne.symm h]

theorem find?_eq_none {m : OrderedMap α β} {k : α} : m.find? k = none ↔ k ∉ m.keys :=
  lookup_eq_none

theorem isSome_find? (m : OrderedMap α β) (k : α) : (m.find? k).isSome = m.contains k := by
  by_cases h : k ∈ m.keys
  · have : m.find? k ≠ none := fun hn => find?_eq_none.1 hn h
    simp [contains, h, Option.isSome_iff_ne_none, this]
  · simp [contains, h, find?_eq_none.2 h]

theorem mem_of_lookup {k : α} {v : β} {l : List (α × β)} (h : lookup k l = some v) :
    (k, v) ∈ l := by
  induction l with
  | nil => simp [lookup] at h
  | cons e rest ih =>
    by_cases he : e.1 = k
    · simp only [lookup, he, if_true, Option.some.injEq] at h
      exact List.mem_cons.2 (.inl (Prod.ext he.symm h.symm))
    · simp only [lookup, he, if_false] at h
      exact List.mem_cons_of_mem _ (ih h)

theorem lookup_of_mem {k : α} {v : β} {l : List (α × β)} (hl : (l.map Prod.fst).Nodup)
    (h : (k, v) ∈ l) : lookup k l = some v := by
  induction l with
  | nil => simp at h
  | cons e rest ih =>
    rw [List.map_cons, List.nodup_cons] at hl
    rcases List.mem_cons.1 h with rfl | hr
    · simp [lookup]
    · have hne : e.1 ≠ k := fun he =>
        hl.1 (List.mem_map.2 ⟨(k, v), hr, he.symm⟩)
      simp [lookup, hne, ih hl.2 hr]

/-- Looking up and enumerating agree. -/
theorem find?_eq_some {m : OrderedMap α β} {k : α} {v : β} :
    m.find? k = some v ↔ (k, v) ∈ m.entries :=
  ⟨mem_of_lookup, lookup_of_mem m.nodup⟩

theorem lookup_map_snd {γ : Type} (f : β → γ) (k : α) (l : List (α × β)) :
    lookup k (l.map fun e => (e.1, f e.2)) = (lookup k l).map f := by
  induction l with
  | nil => rfl
  | cons e rest ih =>
    by_cases h : e.1 = k
    · simp [lookup, h]
    · simp [lookup, h, ih]

theorem find?_mapValues {γ : Type} (m : OrderedMap α β) (f : β → γ) (k : α) :
    (m.mapValues f).find? k = (m.find? k).map f :=
  lookup_map_snd f k m.entries

/-! ### Writing -/

/-- Overwrites the entry of `k` in place, or appends one. -/
def place (k : α) (v : β) : List (α × β) → List (α × β)
  | [] => [(k, v)]
  | e :: rest => if e.1 = k then (k, v) :: rest else e :: place k v rest

theorem map_fst_place (k : α) (v : β) (l : List (α × β)) :
    (place k v l).map Prod.fst =
      if k ∈ l.map Prod.fst then l.map Prod.fst else l.map Prod.fst ++ [k] := by
  induction l with
  | nil => simp [place]
  | cons e rest ih =>
    by_cases h : e.1 = k
    · simp [place, h]
    · have h' : ¬k = e.1 := fun hk => h hk.symm
      simp only [place, h, if_false, List.map_cons, ih, List.mem_cons, h', false_or]
      split <;> simp

/-- Sets the value at a key, which keeps its place if it is present and comes last if it is new. -/
def insert (m : OrderedMap α β) (k : α) (v : β) : OrderedMap α β where
  entries := place k v m.entries
  nodup := by
    rw [map_fst_place]
    split
    · exact m.nodup
    · rename_i h
      exact List.nodup_append.2 ⟨m.nodup, by simp, by
        intro a ha b hb hab
        rw [List.mem_singleton.1 hb] at hab
        exact h (hab ▸ ha)⟩

/-- A write appends a new key and leaves the order of the old ones. -/
theorem keys_insert (m : OrderedMap α β) (k : α) (v : β) :
    (m.insert k v).keys = if k ∈ m.keys then m.keys else m.keys ++ [k] :=
  map_fst_place k v m.entries

theorem mem_keys_insert {m : OrderedMap α β} {k j : α} {v : β} :
    j ∈ (m.insert k v).keys ↔ j = k ∨ j ∈ m.keys := by
  rw [keys_insert]
  split <;> rename_i h
  · exact ⟨.inr, fun hj => hj.elim (fun e => e ▸ h) id⟩
  · simp [or_comm]

theorem lookup_place (k j : α) (v : β) (l : List (α × β)) :
    lookup j (place k v l) = if k = j then some v else lookup j l := by
  induction l with
  | nil => simp [place, lookup]
  | cons e rest ih =>
    by_cases h : e.1 = k
    · by_cases hj : k = j
      · simp [place, lookup, h, hj]
      · simp [place, lookup, h, hj]
    · by_cases hj : k = j
      · subst hj
        simp [place, lookup, h, ih]
      · simp [place, lookup, h, ih, hj]

theorem find?_insert (m : OrderedMap α β) (k j : α) (v : β) :
    (m.insert k v).find? j = if k = j then some v else m.find? j :=
  lookup_place k j v m.entries

@[simp] theorem find?_insert_self (m : OrderedMap α β) (k : α) (v : β) :
    (m.insert k v).find? k = some v := by simp [find?_insert]

theorem find?_insert_of_ne (m : OrderedMap α β) {k j : α} (v : β) (h : k ≠ j) :
    (m.insert k v).find? j = m.find? j := by simp [find?_insert, h]

/-- Sets the value at a key that is absent and leaves a present one alone. -/
def insertNew (m : OrderedMap α β) (k : α) (v : β) : OrderedMap α β :=
  if m.contains k then m else m.insert k v

theorem keys_insertNew (m : OrderedMap α β) (k : α) (v : β) :
    (m.insertNew k v).keys = if k ∈ m.keys then m.keys else m.keys ++ [k] := by
  by_cases h : k ∈ m.keys <;> simp [insertNew, contains, keys_insert, h]

/-- Changes the value at a key, if it is present. -/
def modify (m : OrderedMap α β) (k : α) (f : β → β) : OrderedMap α β :=
  match m.find? k with
  | some v => m.insert k (f v)
  | none => m

@[simp] theorem keys_modify (m : OrderedMap α β) (k : α) (f : β → β) :
    (m.modify k f).keys = m.keys := by
  unfold modify
  split
  · rename_i v hv
    rw [keys_insert, if_pos]
    exact List.mem_map.2 ⟨(k, v), find?_eq_some.1 hv, rfl⟩
  · rfl

theorem find?_modify (m : OrderedMap α β) (k j : α) (f : β → β) :
    (m.modify k f).find? j = if k = j then (m.find? j).map f else m.find? j := by
  unfold modify
  by_cases h : k = j
  · subst h
    cases hv : m.find? k <;> simp [hv]
  · cases m.find? k <;> simp [find?_insert, h]

/-- Reads entries in order; of a repeated key the first place and the last value stay. -/
def ofList (l : List (α × β)) : OrderedMap α β :=
  l.foldl (fun m e => m.insert e.1 e.2) empty

/-! ### Erasing -/

/-- Takes a key out; the later keys move up. -/
def erase (m : OrderedMap α β) (k : α) : OrderedMap α β where
  entries := m.entries.filter fun e => e.1 ≠ k
  nodup := (List.filter_sublist.map Prod.fst).nodup m.nodup

theorem keys_erase (m : OrderedMap α β) (k : α) :
    (m.erase k).keys = m.keys.filter fun j => j ≠ k := by
  simp [keys, erase, List.filter_map, Function.comp_def]

@[simp] theorem mem_keys_erase {m : OrderedMap α β} {k j : α} :
    j ∈ (m.erase k).keys ↔ j ∈ m.keys ∧ j ≠ k := by
  simp [keys_erase]

theorem lookup_filter_ne (k j : α) (l : List (α × β)) :
    lookup j (l.filter fun e => e.1 ≠ k) = if k = j then none else lookup j l := by
  induction l with
  | nil => simp [lookup]
  | cons e rest ih =>
    by_cases h : e.1 = k
    · by_cases hj : k = j
      · subst hj
        simpa [h] using ih
      · simpa [h, hj, lookup] using ih
    · by_cases hj : k = j
      · subst hj
        simpa [h, lookup] using ih
      · by_cases hej : e.1 = j
        · subst hej
          simp [lookup, h, hj]
        · simpa [h, hj, hej, lookup] using ih

theorem find?_erase (m : OrderedMap α β) (k j : α) :
    (m.erase k).find? j = if k = j then none else m.find? j :=
  lookup_filter_ne k j m.entries

@[simp] theorem find?_erase_self (m : OrderedMap α β) (k : α) : (m.erase k).find? k = none := by
  simp [find?_erase]

theorem find?_erase_of_ne (m : OrderedMap α β) {k j : α} (h : k ≠ j) :
    (m.erase k).find? j = m.find? j := by simp [find?_erase, h]

end OrderedMap

end PlanarSketch
