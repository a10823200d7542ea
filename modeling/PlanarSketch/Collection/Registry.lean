/-
Registries: stores that hand out a fresh key for every value they take in.

A key is never handed out twice, also after its value has been removed, so a
key kept after a removal stands for nothing rather than for something else.
Keys carry their serial number, and enumeration is in that order.

Main statements:
* `nextKey_not_mem_keys`: a key handed out is new;
* `keys_insert`, `keys_erase`, `keys_modify`: the order of the keys;
* `find?_insert`, `find?_erase`, `find?_modify`, `find?_map`: look-ups.
-/
import PlanarSketch.Collection.OrderedMap

namespace PlanarSketch

/-- A key of a registry of `α`s. -/
structure Key (α : Type) where
  /-- The place of the key in the order in which keys are handed out, counted from one. -/
  serial : Nat

namespace Key

variable {α : Type}

theorem serial_injective {a b : Key α} (h : a.serial = b.serial) : a = b := by
  cases a
  cases b
  exact congrArg Key.mk h

instance : DecidableEq (Key α) := fun a b =>
  if h : a.serial = b.serial then isTrue (serial_injective h)
  else isFalse fun e => h (congrArg Key.serial e)

/-- The key that no registry hands out. -/
def null : Key α := ⟨0⟩

end Key

/-- A store of `α`s under keys of its own choice. -/
structure Registry (α : Type) where
  /-- What is stored, oldest key first. -/
  store : OrderedMap (Key α) α
  /-- The last serial number handed out. -/
  issued : Nat
  /-- Keys stand in the order of their serial numbers. -/
  sorted : store.keys.Pairwise fun j k => j.serial < k.serial
  /-- Every key in use has been handed out. -/
  bounded : ∀ k ∈ store.keys, 0 < k.serial ∧ k.serial ≤ issued

namespace Registry

variable {α : Type}

/-- The registry that has never stored anything. -/
def empty : Registry α := ⟨.empty, 0, by simp, by simp⟩

instance : Inhabited (Registry α) := ⟨empty⟩

/-- Keys and values, oldest first. -/
def entries (r : Registry α) : List (Key α × α) := r.store.entries

/-- The keys in use, oldest first. -/
def keys (r : Registry α) : List (Key α) := r.store.keys

/-- The stored values, oldest first. -/
def values (r : Registry α) : List α := r.store.values

/-- The number of stored values. -/
def size (r : Registry α) : Nat := r.store.size

/-- The value under a key, if the key is in use. -/
def find? (r : Registry α) (k : Key α) : Option α := r.store.find? k

/-- Whether the key is in use. -/
def contains (r : Registry α) (k : Key α) : Bool := r.store.contains k

/-- The key that the next insertion hands out. -/
def nextKey (r : Registry α) : Key α := ⟨r.issued + 1⟩

/-- A key handed out was not in use. -/
theorem nextKey_not_mem_keys (r : Registry α) : r.nextKey ∉ r.keys := fun h =>
  Nat.not_succ_le_self _ (r.bounded _ h).2

theorem null_not_mem_keys (r : Registry α) : Key.null ∉ r.keys := fun h =>
  Nat.lt_irrefl _ (r.bounded _ h).1

theorem keys_insert_nextKey (r : Registry α) (a : α) :
    (r.store.insert r.nextKey a).keys = r.store.keys ++ [r.nextKey] := by
  rw [OrderedMap.keys_insert]
  exact if_neg r.nextKey_not_mem_keys

/-- Stores a value under `nextKey`. -/
def insert (r : Registry α) (a : α) : Registry α where
  store := r.store.insert r.nextKey a
  issued := r.issued + 1
  sorted := by
    rw [keys_insert_nextKey]
    refine List.pairwise_append.2 ⟨r.sorted, by simp, fun j hj k hk => ?_⟩
    rw [List.mem_singleton.1 hk]
    exact Nat.lt_succ_of_le (r.bounded j hj).2
  bounded := by
    rw [keys_insert_nextKey]
    intro k hk
    rcases List.mem_append.1 hk with h | h
    · exact ⟨(r.bounded k h).1, Nat.le_succ_of_le (r.bounded k h).2⟩
    · rw [List.mem_singleton.1 h]
      exact ⟨Nat.succ_pos _, Nat.le_refl _⟩

/-- Removes what is stored under a key. -/
def erase (r : Registry α) (k : Key α) : Registry α where
  store := r.store.erase k
  issued := r.issued
  sorted := by
    rw [OrderedMap.keys_erase]
    exact r.sorted.filter _
  bounded := fun j hj => r.bounded j (OrderedMap.mem_keys_erase.1 hj).1

/-- Changes what is stored under a key. -/
def modify (r : Registry α) (k : Key α) (f : α → α) : Registry α where
  store := r.store.modify k f
  issued := r.issued
  sorted := by
    rw [OrderedMap.keys_modify]
    exact r.sorted
  bounded := by
    rw [OrderedMap.keys_modify]
    exact r.bounded

/-- Changes everything that is stored. -/
def map (r : Registry α) (f : α → α) : Registry α where
  store := r.store.mapValues f
  issued := r.issued
  sorted := by
    rw [OrderedMap.keys_mapValues]
    exact r.sorted
  bounded := by
    rw [OrderedMap.keys_mapValues]
    exact r.bounded

/-! ### Keys and look-ups -/

@[simp] theorem contains_iff {r : Registry α} {k : Key α} : r.contains k = true ↔ k ∈ r.keys :=
  r.store.contains_iff k

theorem nodup_keys (r : Registry α) : r.keys.Nodup := r.store.nodup

@[simp] theorem keys_insert (r : Registry α) (a : α) : (r.insert a).keys = r.keys ++ [r.nextKey] :=
  r.keys_insert_nextKey a

@[simp] theorem keys_erase (r : Registry α) (k : Key α) :
    (r.erase k).keys = r.keys.filter fun j => j ≠ k :=
  r.store.keys_erase k

@[simp] theorem keys_modify (r : Registry α) (k : Key α) (f : α → α) :
    (r.modify k f).keys = r.keys :=
  r.store.keys_modify k f

@[simp] theorem keys_map (r : Registry α) (f : α → α) : (r.map f).keys = r.keys :=
  r.store.keys_mapValues f

theorem find?_map (r : Registry α) (f : α → α) (k : Key α) :
    (r.map f).find? k = (r.find? k).map f :=
  r.store.find?_mapValues f k

theorem find?_eq_none {r : Registry α} {k : Key α} : r.find? k = none ↔ k ∉ r.keys :=
  OrderedMap.find?_eq_none

theorem find?_eq_some {r : Registry α} {k : Key α} {a : α} :
    r.find? k = some a ↔ (k, a) ∈ r.entries :=
  OrderedMap.find?_eq_some

theorem find?_insert (r : Registry α) (a : α) (k : Key α) :
    (r.insert a).find? k = if r.nextKey = k then some a else r.find? k :=
  r.store.find?_insert _ _ _

theorem find?_erase (r : Registry α) (j k : Key α) :
    (r.erase j).find? k = if j = k then none else r.find? k :=
  r.store.find?_erase _ _

theorem find?_modify (r : Registry α) (j k : Key α) (f : α → α) :
    (r.modify j f).find? k = if j = k then (r.find? k).map f else r.find? k :=
  r.store.find?_modify _ _ _

end Registry

end PlanarSketch
