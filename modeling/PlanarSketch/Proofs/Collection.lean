/-
Further facts about the collections, as the theory of decompositions needs
them.

* `Registry.entries_insert`, `Registry.size_erase`: a registry grows at its
  end and shrinks by one;
* `OrderedSet.toList_foldl_erase`: taking out several members at once;
* `Roster.Tidy`: seats are given away once, and who comes or goes leaves the
  others where they are;
* `orElse_eq_none`, `orElse_eq_some`: alternatives that are tried in turn;
* `mapM_congr`, `forall₂_of_mapM_eq_some`: computations along a list;
* `Change.run_bind` and the like: changes that may fail, step by step;
* `countP_lt_countP`, `total`: counts and totals over lists;
* `NameSet.size_le_of_subset`, `NameSet.size_lt_of_subset`,
  `NameSet.only?_eq_some`: sizes of sets of names in terms of their members.
-/
import Mathlib.Data.List.Forall2
import PlanarSketch.Collection.NameSet
import PlanarSketch.Collection.OrderedSet
import PlanarSketch.Collection.Pairs
import PlanarSketch.Collection.Registry
import PlanarSketch.Collection.Roster

namespace PlanarSketch

/-! ### Alternatives and pairs -/

section Alternatives

variable {α : Type} {a b : Option α}

theorem orElse_eq_none : (a <|> b) = none ↔ a = none ∧ b = none := by
  cases a <;> simp

theorem orElse_eq_some {x : α} : (a <|> b) = some x ↔ a = some x ∨ a = none ∧ b = some x := by
  cases a <;> simp

theorem or_of_orElse_eq_some {x : α} (h : (a <|> b) = some x) : a = some x ∨ b = some x :=
  (orElse_eq_some.1 h).imp_right And.right

/-- Two different members of a list form a pair in one order or the other. -/
theorem mem_pairs_or {x y : α} {l : List α} (hx : x ∈ l) (hy : y ∈ l) (hne : x ≠ y) :
    (x, y) ∈ pairs l ∨ (y, x) ∈ pairs l := by
  induction l with
  | nil => cases hx
  | cons c rest ih =>
    simp only [pairs_cons, List.mem_append, List.mem_map]
    rcases List.mem_cons.1 hx with rfl | hxr
    · rcases List.mem_cons.1 hy with rfl | hyr
      · exact absurd rfl hne
      · exact .inl (.inl ⟨y, hyr, rfl⟩)
    · rcases List.mem_cons.1 hy with rfl | hyr
      · exact .inr (.inl ⟨x, hxr, rfl⟩)
      · exact (ih hxr hyr).imp .inr .inr

end Alternatives

/-! ### Computations along a list -/

theorem mapM_congr {α β : Type} {F : Type → Type} [Monad F] [LawfulMonad F] {f g : α → F β}
    {l : List α} (h : ∀ a ∈ l, f a = g a) : l.mapM f = l.mapM g := by
  induction l with
  | nil => rfl
  | cons a rest ih =>
    rw [List.mapM_cons, List.mapM_cons, h a List.mem_cons_self,
      ih fun b hb => h b (List.mem_cons_of_mem _ hb)]

theorem forall₂_of_mapM_eq_some {α β : Type} {f : α → Option β} {l : List α} {bs : List β}
    (h : l.mapM f = some bs) : List.Forall₂ (fun a b => f a = some b) l bs := by
  induction l generalizing bs with
  | nil =>
    cases h
    exact .nil
  | cons a rest ih =>
    rw [List.mapM_cons] at h
    obtain ⟨b, hb, h⟩ := Option.bind_eq_some_iff.1 h
    obtain ⟨bs', hbs', h⟩ := Option.bind_eq_some_iff.1 h
    cases h
    exact .cons hb (ih hbs')

/-! ### Changes that may fail -/

namespace Change

variable {ε σ α β : Type} {x : ExceptT ε (StateM σ) α} {s s' : σ} {a : α} {e : ε}

theorem run_bind (x : ExceptT ε (StateM σ) α) (f : α → ExceptT ε (StateM σ) β) (s : σ) :
    (x >>= f).run.run s = match x.run.run s with
      | (.ok a, s') => (f a).run.run s'
      | (.error e, s') => (.error e, s') := by
  show (ExceptT.bindCont f (x.run.run s).1).run (x.run.run s).2 = _
  cases x.run.run s with
  | mk r s' => cases r <;> rfl

theorem run_bind_of_ok (h : x.run.run s = (.ok a, s')) (f : α → ExceptT ε (StateM σ) β) :
    (x >>= f).run.run s = (f a).run.run s' := by
  rw [run_bind, h]

theorem run_bind_of_error (h : x.run.run s = (.error e, s')) (f : α → ExceptT ε (StateM σ) β) :
    (x >>= f).run.run s = (.error e, s') := by
  rw [run_bind, h]

theorem run_get_bind (f : σ → ExceptT ε (StateM σ) β) (s : σ) :
    (get >>= f : ExceptT ε (StateM σ) β).run.run s = (f s).run.run s :=
  rfl

end Change

/-! ### Counts and totals over lists -/

section Totals

variable {α : Type} {l : List α} {f g : α → Nat}

/-- A stronger condition that fails somewhere is met less often. -/
theorem countP_lt_countP {p q : α → Bool} {x : α} (h : ∀ a ∈ l, p a = true → q a = true)
    (hx : x ∈ l) (hp : p x = false) (hq : q x = true) : l.countP p < l.countP q := by
  induction l with
  | nil => cases hx
  | cons a rest ih =>
    have hrest : ∀ b ∈ rest, p b = true → q b = true := fun b hb => h b (List.mem_cons_of_mem _ hb)
    have hmono : rest.countP p ≤ rest.countP q := List.countP_mono_left hrest
    rw [List.countP_cons, List.countP_cons]
    rcases List.mem_cons.1 hx with rfl | hx
    · rw [if_neg (by simp [hp]), if_pos hq]
      omega
    · -- The gap is in the rest, and the head does not close it.
      have hlt := ih hrest hx
      have ha := h a List.mem_cons_self
      by_cases hpa : p a = true
      · rw [if_pos hpa, if_pos (ha hpa)]
        omega
      · rw [if_neg hpa]
        omega

/-- A quantity added up over a list. -/
def total (f : α → Nat) : List α → Nat
  | [] => 0
  | a :: rest => f a + total f rest

@[simp] theorem total_nil (f : α → Nat) : total f [] = 0 := rfl

@[simp] theorem total_cons (f : α → Nat) (a : α) (rest : List α) :
    total f (a :: rest) = f a + total f rest := rfl

theorem total_append (f : α → Nat) (l k : List α) : total f (l ++ k) = total f l + total f k := by
  induction l with
  | nil => simp
  | cons a rest ih =>
    rw [List.cons_append, total_cons, total_cons, ih]
    omega

theorem total_congr (h : ∀ a ∈ l, f a = g a) : total f l = total g l := by
  induction l with
  | nil => rfl
  | cons a rest ih =>
    rw [total_cons, total_cons, h a List.mem_cons_self,
      ih fun b hb => h b (List.mem_cons_of_mem _ hb)]

/-- The members that meet a condition and the others make up the total. -/
theorem total_filter (f : α → Nat) (p : α → Bool) (l : List α) :
    total f l = total f (l.filter p) + total f (l.filter fun a => !p a) := by
  induction l with
  | nil => rfl
  | cons a rest ih =>
    cases h : p a with
    | true =>
      rw [List.filter_cons_of_pos h, List.filter_cons_of_neg (by simp [h]), total_cons, total_cons]
      omega
    | false =>
      rw [List.filter_cons_of_neg (by simp [h]), List.filter_cons_of_pos (by simp [h]), total_cons,
        total_cons]
      omega

theorem le_total {a : α} (h : a ∈ l) : f a ≤ total f l := by
  induction l with
  | nil => cases h
  | cons b rest ih =>
    rw [total_cons]
    rcases List.mem_cons.1 h with rfl | h
    · omega
    · have := ih h
      omega

theorem add_le_total {a b : α} (ha : a ∈ l) (hb : b ∈ l) (hne : a ≠ b) :
    f a + f b ≤ total f l := by
  induction l with
  | nil => cases ha
  | cons c rest ih =>
    rw [total_cons]
    rcases List.mem_cons.1 ha with rfl | har
    · rcases List.mem_cons.1 hb with rfl | hbr
      · exact absurd rfl hne
      · have hle : f b ≤ total f rest := le_total hbr
        omega
    · rcases List.mem_cons.1 hb with rfl | hbr
      · have hle : f a ≤ total f rest := le_total har
        omega
      · have := ih har hbr
        omega

theorem total_perm {k : List α} (h : l.Perm k) : total f l = total f k := by
  induction h with
  | nil => rfl
  | cons a _ ih => rw [total_cons, total_cons, ih]
  | swap a b rest =>
    rw [total_cons, total_cons, total_cons, total_cons]
    omega
  | trans _ _ ih₁ ih₂ => exact ih₁.trans ih₂

theorem total_le {b : Nat} (h : ∀ a ∈ l, f a ≤ b) : total f l ≤ l.length * b := by
  induction l with
  | nil => exact Nat.zero_le _
  | cons c rest ih =>
    have hc := h c List.mem_cons_self
    have hrest := ih fun a ha => h a (List.mem_cons_of_mem _ ha)
    rw [total_cons, List.length_cons, Nat.add_mul]
    omega

end Totals

/-! ### Maps and registries -/

/-- What stands under a new key comes last. -/
theorem OrderedMap.place_of_not_mem {α β : Type} [DecidableEq α] {k : α} {v : β}
    {l : List (α × β)} (h : k ∉ l.map Prod.fst) : place k v l = l ++ [(k, v)] := by
  induction l with
  | nil => rfl
  | cons e rest ih =>
    rw [List.map_cons, List.mem_cons, not_or] at h
    rw [place, if_neg (Ne.symm h.1), ih h.2, List.cons_append]

section Entries

variable {α β : Type} {m : OrderedMap α β} {k : α} {v : β}

theorem OrderedMap.ext_entries {m' : OrderedMap α β} (h : m'.entries = m.entries) : m' = m := by
  cases m
  cases m'
  exact (OrderedMap.mk.injEq ..).mpr h

variable [DecidableEq α]

theorem OrderedMap.erase_of_not_mem (h : k ∉ m.keys) : m.erase k = m := by
  refine ext_entries (List.filter_eq_self.2 fun e he => decide_eq_true ?_)
  rintro rfl
  exact h (List.mem_map.2 ⟨e, he, rfl⟩)

theorem OrderedMap.entries_insert_of_new (h : k ∉ m.keys) :
    (m.insert k v).entries = m.entries ++ [(k, v)] :=
  place_of_not_mem h

theorem OrderedMap.exists_find? (h : k ∈ m.keys) : ∃ w, m.find? k = some w :=
  Option.ne_none_iff_exists'.1 (mt find?_eq_none.1 (not_not_intro h))

theorem OrderedMap.insert_of_mem (h : k ∈ m.keys) : m.insert k v = m.modify k fun _ => v := by
  obtain ⟨w, hw⟩ := exists_find? h
  rw [modify, hw]

/-- Reading the entries of a map gives the map. -/
theorem OrderedMap.ofList_entries (m : OrderedMap α β) : ofList m.entries = m := by
  -- As long as the keys are new, reading appends entries.
  have hread : ∀ (l : List (α × β)) (m' : OrderedMap α β),
      ((m'.entries ++ l).map Prod.fst).Nodup →
        (l.foldl (fun m e => m.insert e.1 e.2) m').entries = m'.entries ++ l := by
    intro l
    induction l with
    | nil => exact fun m' _ => (List.append_nil _).symm
    | cons e rest ih =>
      intro m' hnd
      have hnew : e.1 ∉ m'.keys := by
        rw [List.map_append, List.map_cons] at hnd
        exact fun hmem => (List.nodup_append.1 hnd).2.2 _ hmem _ List.mem_cons_self rfl
      have hentries := entries_insert_of_new (v := e.2) hnew
      rw [List.foldl_cons, ih, hentries, List.append_assoc]
      · rfl
      · rw [hentries, List.append_assoc]
        exact hnd
  exact ext_entries (hread m.entries empty m.nodup)

/-- What is read off the entries that are left, where `q` tells what was read off them. -/
theorem filterMap_filter_eq {γ : Type} {l : List β} {g : β → Option γ} {p : β → Bool}
    {q : γ → Bool} (h : ∀ b ∈ l, ∀ c, g b = some c → p b = q c) :
    (l.filter p).filterMap g = (l.filterMap g).filter q := by
  induction l with
  | nil => rfl
  | cons b rest ih =>
    have hrest := ih fun b' hb' => h b' (List.mem_cons_of_mem _ hb')
    rw [List.filter_cons, List.filterMap_cons]
    cases hg : g b with
    | none =>
      split
      · rw [List.filterMap_cons, hg, hrest]
      · exact hrest
    | some c =>
      rw [List.filter_cons, ← h b List.mem_cons_self c hg]
      split
      · rw [List.filterMap_cons, hg, hrest]
      · exact hrest

end Entries

namespace Registry

variable {α : Type} {r : Registry α}

theorem mem_keys_iff {k : Key α} : k ∈ r.keys ↔ ∃ a, r.find? k = some a := by
  rw [← Option.isSome_iff_exists, Option.isSome_iff_ne_none, ne_eq, find?_eq_none,
    Classical.not_not]

theorem mem_keys_of_find? {k : Key α} {a : α} (h : r.find? k = some a) : k ∈ r.keys :=
  mem_keys_iff.2 ⟨a, h⟩

theorem find?_nextKey : r.find? r.nextKey = none :=
  find?_eq_none.2 r.nextKey_not_mem_keys

/-- A key handed out is younger than all keys in use. -/
theorem serial_lt_nextKey {k : Key α} (h : k ∈ r.keys) : k.serial < r.nextKey.serial :=
  Nat.lt_succ_of_le (r.bounded k h).2

theorem mem_values_iff {a : α} : a ∈ r.values ↔ ∃ k, r.find? k = some a := by
  show a ∈ r.entries.map Prod.snd ↔ _
  rw [List.mem_map]
  constructor
  · rintro ⟨⟨k, b⟩, hb, rfl⟩
    exact ⟨k, find?_eq_some.2 hb⟩
  · rintro ⟨k, hk⟩
    exact ⟨(k, a), find?_eq_some.1 hk, rfl⟩

/-- What is taken in comes last. -/
theorem entries_insert (r : Registry α) (a : α) :
    (r.insert a).entries = r.entries ++ [(r.nextKey, a)] :=
  OrderedMap.place_of_not_mem r.nextKey_not_mem_keys

theorem values_insert (r : Registry α) (a : α) : (r.insert a).values = r.values ++ [a] := by
  show (r.insert a).entries.map Prod.snd = r.entries.map Prod.snd ++ [a]
  rw [entries_insert, List.map_append]
  rfl

theorem find?_insert_eq_some {k : Key α} {a b : α} :
    (r.insert a).find? k = some b ↔ r.find? k = some b ∨ k = r.nextKey ∧ b = a := by
  rw [find?_insert]
  by_cases h : r.nextKey = k
  · subst h
    simp [find?_nextKey, eq_comm]
  · simp [h, Ne.symm h]

theorem find?_erase_eq_some {j k : Key α} {a : α} :
    (r.erase j).find? k = some a ↔ j ≠ k ∧ r.find? k = some a := by
  rw [find?_erase]
  by_cases h : j = k
  · simp [h]
  · simp [h]

/-- Erasing a key in use makes a registry smaller by one. -/
theorem size_erase {k : Key α} (h : k ∈ r.keys) : (r.erase k).size + 1 = r.size := by
  have hl : ∀ m : Registry α, m.size = m.keys.length := fun m => m.store.length_keys.symm
  rw [hl, hl, keys_erase]
  have hsplit := List.length_eq_countP_add_countP (fun j => decide (j ≠ k)) (l := r.keys)
  have hone : r.keys.countP (fun j => ¬decide (j ≠ k) = true) = 1 := by
    have hcount := r.nodup_keys.count (a := k)
    rw [if_pos h] at hcount
    rw [← hcount, List.count]
    refine List.countP_congr fun j _ => ?_
    simp
  rw [hone, List.countP_eq_length_filter] at hsplit
  exact hsplit.symm

end Registry

/-! ### Sets in order of arrival -/

namespace OrderedSet

variable {α : Type} [DecidableEq α] {s : OrderedSet α}

theorem toList_foldl_erase (l : List α) (s : OrderedSet α) :
    (l.foldl erase s).toList = s.toList.filter fun a => a ∉ l := by
  induction l generalizing s with
  | nil => exact (List.filter_eq_self.2 fun a _ => by simp).symm
  | cons b rest ih =>
    rw [List.foldl_cons, ih, toList_erase, List.filter_filter]
    refine List.filter_congr fun a _ => ?_
    simp [Bool.and_comm]

theorem mem_foldl_erase {l : List α} {a : α} : a ∈ l.foldl erase s ↔ a ∈ s ∧ a ∉ l := by
  rw [← mem_toList, toList_foldl_erase, List.mem_filter, mem_toList, decide_eq_true_iff]

theorem insert_of_mem {a : α} (h : a ∈ s) : s.insert a = s := by
  simp [insert, h]

theorem erase_of_not_mem {a : α} (h : a ∉ s) : s.erase a = s := by
  have hkeep : s.toList.filter (fun b => b ≠ a) = s.toList := by
    refine List.filter_eq_self.2 fun b hb => decide_eq_true ?_
    rintro rfl
    exact h hb
  simp only [erase, hkeep]

theorem toList_insert_of_not_mem {a : α} (h : a ∉ s) : (s.insert a).toList = s.toList ++ [a] := by
  rw [toList_insert, if_neg h]

/-- Members that are added again change nothing. -/
theorem insertMany_of_subset {l : List α} (h : ∀ a ∈ l, a ∈ s) : s.insertMany l = s := by
  induction l with
  | nil => rfl
  | cons b rest ih =>
    show (s.insert b).insertMany rest = s
    rw [insert_of_mem (h b List.mem_cons_self)]
    exact ih fun a ha => h a (List.mem_cons_of_mem _ ha)

end OrderedSet

/-! ### Rosters -/

namespace Roster

variable {α : Type} {r : Roster α} {a b : α}

theorem mem_members : a ∈ r.members ↔ some a ∈ r.seats := by
  simp [members]

/-- The seats on the list of vacant ones are empty, and none stands there twice. -/
structure Tidy (r : Roster α) : Prop where
  nodup : r.vacant.Nodup
  empty : ∀ i ∈ r.vacant, r.seats[i]? = some none

theorem tidy_empty : (empty : Roster α).Tidy := ⟨List.nodup_nil, nofun⟩

/-- A seat that one member has is not that of another, nor is it empty. -/
theorem mem_set_of_ne {l : List (Option α)} {i : Nat} {o : Option α} (h : some a ∈ l)
    (hi : l[i]? ≠ some (some a)) : some a ∈ l.set i o := by
  obtain ⟨j, hj⟩ := List.mem_iff_getElem?.1 h
  refine List.mem_iff_getElem?.2 ⟨j, ?_⟩
  rwa [List.getElem?_set_ne]
  rintro rfl
  exact hi hj

/-- A newcomer takes the place of nobody. -/
theorem Tidy.seat (h : r.Tidy) (a : α) :
    (r.seat a).Tidy ∧ ∀ b, b ∈ r.members ∨ b = a → b ∈ (r.seat a).members := by
  obtain ⟨seats, vacant⟩ := r
  simp only [mem_members]
  cases vacant with
  | nil =>
    -- No seat is vacant, so a new one comes last.
    refine ⟨⟨List.nodup_nil, nofun⟩, fun b hb => List.mem_append.2 (hb.imp id ?_)⟩
    rintro rfl
    exact List.mem_singleton_self _
  | cons i rest =>
    obtain ⟨hi, hrest⟩ := List.nodup_cons.1 h.nodup
    -- The seat that is taken was empty.
    have hnone : seats[i]? = some none := h.empty i List.mem_cons_self
    refine ⟨⟨hrest, fun j hj => ?_⟩, fun b hb => ?_⟩
    · show (seats.set i (some a))[j]? = some none
      rw [List.getElem?_set_ne (ne_of_mem_of_not_mem hj hi).symm]
      exact h.empty j (List.mem_cons_of_mem i hj)
    · rcases hb with hb | rfl
      · exact mem_set_of_ne hb (by rw [hnone]; simp)
      · exact List.mem_set (List.getElem?_eq_some_iff.1 hnone).1 _

/-- Who goes leaves the others where they are. -/
theorem Tidy.vacate [DecidableEq α] (h : r.Tidy) (a : α) :
    (r.vacate a).Tidy ∧ ∀ b, b ∈ r.members → b ≠ a → b ∈ (r.vacate a).members := by
  unfold Roster.vacate
  split
  · exact ⟨h, fun b hb _ => hb⟩
  · rename_i i hi
    -- The seat of `a` was taken, so it was not vacant before.
    obtain ⟨hlt, hseat, -⟩ := List.findIdx?_eq_some_iff_getElem.1 hi
    have htaken : r.seats[i]? = some (some a) :=
      List.getElem?_eq_some_iff.2 ⟨hlt, of_decide_eq_true hseat⟩
    have hnew : i ∉ r.vacant := fun hmem => by
      rw [h.empty i hmem] at htaken
      cases htaken
    refine ⟨⟨List.nodup_cons.2 ⟨hnew, h.nodup⟩, fun j hj => ?_⟩, fun b hb hne => ?_⟩
    · rcases List.mem_cons.1 hj with rfl | hj
      · exact List.getElem?_set_self hlt
      · show (r.seats.set i none)[j]? = some none
        rw [List.getElem?_set_ne (ne_of_mem_of_not_mem hj hnew).symm]
        exact h.empty j hj
    · refine mem_members.2 (mem_set_of_ne (mem_members.1 hb) ?_)
      rw [htaken]
      simpa using Ne.symm hne

end Roster

/-! ### Sets of names -/

namespace NameSet

variable {s t : NameSet}

theorem size_le_of_mem_imp {l : List PointName} (h : ∀ a ∈ s, a ∈ l) : s.size ≤ l.length :=
  s.nodup_toList.length_le_of_subset h

theorem size_le_of_subset (h : s ⊆ t) : s.size ≤ t.size := size_le_of_mem_imp h

/-- A set with a further name is larger. -/
theorem size_lt_of_subset {a : PointName} (h : s ⊆ t) (ht : a ∈ t) (hs : a ∉ s) :
    s.size < t.size := by
  have hnd : (a :: s.toList).Nodup := List.nodup_cons.2 ⟨hs, s.nodup_toList⟩
  have hsub : (a :: s.toList) ⊆ t.toList := by
    intro b hb
    rcases List.mem_cons.1 hb with rfl | hb
    · exact ht
    · exact h b hb
  exact hnd.length_le_of_subset hsub

theorem size_pos_iff : 0 < s.size ↔ ∃ a, a ∈ s := by
  rw [size, List.length_pos_iff_exists_mem]
  rfl

/-- A set of two names or more has two different ones. -/
theorem two_le_size_iff : 2 ≤ s.size ↔ ∃ a b, a ∈ s ∧ b ∈ s ∧ a ≠ b := by
  constructor
  · intro h
    match hl : s.toList with
    | [] => simp [size, hl] at h
    | [a] => simp [size, hl] at h
    | a :: b :: rest =>
      -- The first two names are different, since no name stands twice.
      have hnd := s.nodup_toList
      rw [hl, List.nodup_cons] at hnd
      refine ⟨a, b, ?_, ?_, fun e => hnd.1 (e ▸ List.mem_cons_self)⟩
      · show a ∈ s.toList
        simp [hl]
      · show b ∈ s.toList
        simp [hl]
  · rintro ⟨a, b, ha, hb, hab⟩
    -- Two different names need two places.
    have hnd : [a, b].Nodup := by simp [hab]
    refine hnd.length_le_of_subset fun c hc => ?_
    rcases List.mem_cons.1 hc with rfl | hc
    · exact ha
    · rw [List.mem_singleton.1 hc]
      exact hb

theorem three_le_size {a b c : PointName} (ha : a ∈ s) (hb : b ∈ s) (hc : c ∈ s) (hab : a ≠ b)
    (hac : a ≠ c) (hbc : b ≠ c) : 3 ≤ s.size := by
  have hnd : [a, b, c].Nodup := by simp [hab, hac, hbc]
  refine hnd.length_le_of_subset fun v hv => ?_
  simp only [List.mem_cons, List.not_mem_nil, or_false] at hv
  rcases hv with rfl | rfl | rfl <;> assumption

/-- Of two sets together the shared names count once. -/
theorem size_union_add_size_inter (s t : NameSet) :
    (s ∪ t).size + (s ∩ t).size = s.size + t.size := by
  have hnd : (t.toList ++ s.toList.filter fun a => a ∉ t).Nodup := by
    refine List.nodup_append.2 ⟨t.nodup_toList, s.nodup_toList.filter _, fun a ha b hb => ?_⟩
    rintro rfl
    simp only [List.mem_filter, decide_eq_true_eq] at hb
    exact hb.2 ha
  -- The union is the one set and what the other has beyond it.
  have hperm : (s ∪ t).toList.Perm (t.toList ++ s.toList.filter fun a => a ∉ t) := by
    refine (List.perm_ext_iff_of_nodup (s ∪ t).nodup_toList hnd).2 fun a => ?_
    rw [mem_toList, mem_union, List.mem_append, List.mem_filter, decide_eq_true_eq, mem_toList,
      mem_toList]
    by_cases ht : a ∈ t <;> simp [ht]
  have hunion : (s ∪ t).size = t.size + (s.toList.filter fun a => a ∉ t).length := by
    rw [size, hperm.length_eq, List.length_append]
    rfl
  have hinter : (s ∩ t).size = (s.toList.filter fun a => a ∈ t).length := rfl
  -- What the other has beyond it and what both have make up the other.
  have hsplit := List.length_eq_countP_add_countP (l := s.toList) fun a => decide (a ∈ t)
  rw [List.countP_eq_length_filter, List.countP_eq_length_filter] at hsplit
  simp only [Bool.decide_eq_true, decide_not] at hsplit hunion
  have hs : s.size = s.toList.length := rfl
  omega

/-- The only name of a set is the one that it consists of. -/
theorem only?_eq_some {a : PointName} : s.only? = some a ↔ ∀ b, b ∈ s ↔ b = a := by
  constructor
  · intro h b
    match hl : s.toList with
    | [] => simp [only?, hl] at h
    | [c] =>
      have hc : c = a := by simpa [only?, hl] using h
      show b ∈ s.toList ↔ b = a
      simp [hl, hc]
    | _ :: _ :: _ => simp [only?, hl] at h
  · intro h
    have hs : s.toList = [a] :=
      eq_of_sorted s.sorted (List.pairwise_singleton _ _) fun b => by
        rw [List.mem_singleton]
        exact h b
    simp [only?, hs]

theorem isEmpty_eq_false_iff : s.isEmpty = false ↔ ∃ a, a ∈ s := by
  rw [isEmpty, List.isEmpty_eq_false_iff_exists_mem]
  rfl

end NameSet

end PlanarSketch
