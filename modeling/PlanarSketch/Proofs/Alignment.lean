/-
What a union of two configurations has.

The second configuration is moved onto the first one along the points that they
share.  Whatever the motion is, the union has the points of the first one where
they were, and then those of the second one that are new.  It is flagged if one
of the two was, or if the shared points leave a freedom: the search for two of
them that are apart on both sides fails just if there are none, in either
order, and then a single place is shared, or no place at all.

* `Configuration.common`, `Configuration.Apart`: the shared names, and points
  that do not coincide;
* `Configuration.names_uniteAlong`, `Configuration.ambiguous_iff`: the names of
  a union, and the freedom of an alignment;
* `Configuration.Unites`, `Configuration.merge_unites`: all of it, for the union
  after a rigid motion and after a similarity.
-/
import PlanarSketch.Proofs.Distances
import PlanarSketch.Proofs.RootFrame

namespace PlanarSketch

/-! ### Pairs and maps -/

section Pairs

variable {α β : Type} {f : α → Option β} {l : List α} {s t : β}

/-- The pairs of what a partial function gives. -/
theorem mem_pairs_filterMap : (s, t) ∈ pairs (l.filterMap f) ↔
    ∃ a b, (a, b) ∈ pairs l ∧ f a = some s ∧ f b = some t := by
  induction l with
  | nil => simp
  | cons c rest ih =>
    cases hc : f c with
    | none =>
      rw [List.filterMap_cons_none hc, ih]
      constructor
      · rintro ⟨a, b, hab, hs, ht⟩
        exact ⟨a, b, List.mem_append_right _ hab, hs, ht⟩
      · rintro ⟨a, b, hab, hs, ht⟩
        rcases List.mem_append.1 hab with hab | hab
        · obtain ⟨d, -, he⟩ := List.mem_map.1 hab
          obtain ⟨rfl, rfl⟩ := Prod.mk.inj he
          rw [hc] at hs
          cases hs
        · exact ⟨a, b, hab, hs, ht⟩
    | some r =>
      -- A pair has the head of the list for its first member or lies in the rest.
      rw [List.filterMap_cons_some hc, pairs_cons, List.mem_append, ih]
      constructor
      · rintro (hst | ⟨a, b, hab, hs, ht⟩)
        · obtain ⟨t', ht', he⟩ := List.mem_map.1 hst
          obtain ⟨rfl, rfl⟩ := Prod.mk.inj he
          obtain ⟨d, hd, ht⟩ := List.mem_filterMap.1 ht'
          exact ⟨c, d, List.mem_append_left _ (List.mem_map.2 ⟨d, hd, rfl⟩), hc, ht⟩
        · exact ⟨a, b, List.mem_append_right _ hab, hs, ht⟩
      · rintro ⟨a, b, hab, hs, ht⟩
        rcases List.mem_append.1 hab with hab | hab
        · obtain ⟨d, hd, he⟩ := List.mem_map.1 hab
          obtain ⟨rfl, rfl⟩ := Prod.mk.inj he
          obtain rfl := Option.some_inj.1 (hc.symm.trans hs)
          exact .inl (List.mem_map.2 ⟨t, List.mem_filterMap.2 ⟨d, hd, ht⟩, rfl⟩)
        · exact .inr ⟨a, b, hab, hs, ht⟩

/-- New keys come after those that were there, in their own order. -/
theorem OrderedMap.keys_foldl_insertNew {γ : Type} [DecidableEq α] {g : β → γ}
    {entries : List (α × β)} (hnodup : (entries.map Prod.fst).Nodup) (m : OrderedMap α γ) :
    (entries.foldl (fun m e => m.insertNew e.1 (g e.2)) m).keys =
      m.keys ++ (entries.map Prod.fst).filter fun k => k ∉ m.keys := by
  induction entries generalizing m with
  | nil => simp
  | cons e rest ih =>
    obtain ⟨he, hrest⟩ := List.nodup_cons.1 hnodup
    rw [List.foldl_cons, ih hrest, keys_insertNew, List.map_cons, List.filter_cons]
    by_cases hk : e.1 ∈ m.keys
    · simp [hk]
    · have hsame : (rest.map Prod.fst).filter (fun k => k ∉ m.keys ++ [e.1]) =
          (rest.map Prod.fst).filter fun k => k ∉ m.keys := by
        refine List.filter_congr fun k hkr => ?_
        have hne : k ≠ e.1 := fun h => he (h ▸ hkr)
        simp [hne]
      simp only [hk, if_false, hsame, not_false_eq_true, decide_true, if_true, List.append_assoc]
      rfl

end Pairs

namespace Configuration

variable {a b c : Configuration} {u v : PointName}

/-! ### Shared points -/

/-- The shared names, in the order of the first configuration. -/
def common (a b : Configuration) : List PointName := a.names.filter fun v => v ∈ b.names

/-- Both points have a position, and their distance is not zero up to the tolerance. -/
def Apart (c : Configuration) (u v : PointName) : Prop :=
  ∃ p q, c.position? u = some p ∧ c.position? v = some q ∧
    Tolerance.standard.nearZero (q - p).norm = false

theorem Apart.symm (h : c.Apart u v) : c.Apart v u := by
  obtain ⟨p, q, hp, hq, hpq⟩ := h
  exact ⟨q, p, hq, hp, Vec.norm_sub_comm p q ▸ hpq⟩

theorem mem_names_of_position {p : Vec} (h : c.position? v = some p) : v ∈ c.names :=
  List.mem_map.2 ⟨(v, p), OrderedMap.find?_eq_some.1 h, rfl⟩

theorem mem_common : v ∈ a.common b ↔ v ∈ a.names ∧ v ∈ b.names := by
  simp [common]

theorem length_shared (a b : Configuration) : (a.shared b).length = (a.common b).length := by
  show _ = ((a.points.entries.map Prod.fst).filter fun v => v ∈ b.names).length
  rw [shared, List.length_filterMap_eq_countP, List.filter_map, List.length_map,
    List.countP_eq_length_filter]
  congr 1
  refine List.filter_congr fun e _ => ?_
  rw [Option.isSome_map]
  exact OrderedMap.isSome_find? b.points e.1

theorem exists_distinct_of_mem_pairs {e e' : PointName × Vec}
    (he : (e, e') ∈ pairs a.points.entries) (ha : a.Apart e.1 e'.1) (hb : b.Apart e.1 e'.1) :
    ∃ s ∈ pairs (a.shared b), s.1.distinct s.2 = true := by
  obtain ⟨p, q, hp, hq, hpq⟩ := ha
  obtain ⟨p', q', hp', hq', hpq'⟩ := hb
  have hmem := (mem_pairs_iff.1 he).subset
  obtain rfl : p = e.2 := Option.some_inj.1
    (hp.symm.trans (OrderedMap.find?_eq_some.2 (hmem List.mem_cons_self)))
  obtain rfl : q = e'.2 := Option.some_inj.1
    (hq.symm.trans (OrderedMap.find?_eq_some.2 (hmem (by simp))))
  refine ⟨(⟨e.2, p'⟩, ⟨e'.2, q'⟩), mem_pairs_filterMap.2 ⟨e, e', he, ?_, ?_⟩, ?_⟩
  · rw [hp']
    rfl
  · rw [hq']
    rfl
  · simp [Shared.distinct, hpq, hpq']

/-- A pair of shared points that can be used for an alignment consists of two points that are apart
on both sides. -/
theorem exists_distinct_iff : (∃ s ∈ pairs (a.shared b), s.1.distinct s.2 = true) ↔
    ∃ u ∈ a.common b, ∃ v ∈ a.common b, u ≠ v ∧ a.Apart u v ∧ b.Apart u v := by
  constructor
  · rintro ⟨⟨s, t⟩, hst, hdistinct⟩
    obtain ⟨e, e', he, hs, ht⟩ := mem_pairs_filterMap.1 hst
    obtain ⟨p', hp', rfl⟩ := Option.map_eq_some_iff.1 hs
    obtain ⟨q', hq', rfl⟩ := Option.map_eq_some_iff.1 ht
    have hsub := mem_pairs_iff.1 he
    have hp : a.position? e.1 = some e.2 :=
      OrderedMap.find?_eq_some.2 (hsub.subset List.mem_cons_self)
    have hq : a.position? e'.1 = some e'.2 := OrderedMap.find?_eq_some.2 (hsub.subset (by simp))
    have hne : e.1 ≠ e'.1 := by
      have hnodup := (hsub.map Prod.fst).nodup a.points.nodup
      simpa using hnodup
    simp only [Shared.distinct, Bool.and_eq_true, Bool.not_eq_true'] at hdistinct
    exact ⟨e.1, mem_common.2 ⟨mem_names_of_position hp, mem_names_of_position hp'⟩,
      e'.1, mem_common.2 ⟨mem_names_of_position hq, mem_names_of_position hq'⟩, hne,
      ⟨_, _, hp, hq, hdistinct.1⟩, ⟨_, _, hp', hq', hdistinct.2⟩⟩
  · rintro ⟨u, -, v, -, hne, ha, hb⟩
    obtain ⟨p, q, hp, hq, -⟩ := id ha
    -- The search looks at the two in the order of the first configuration.
    rcases mem_pairs_or (OrderedMap.find?_eq_some.1 hp) (OrderedMap.find?_eq_some.1 hq)
      (fun he => hne (Prod.mk.inj he).1) with h | h
    · exact exists_distinct_of_mem_pairs h ha hb
    · exact exists_distinct_of_mem_pairs h ha.symm hb.symm

/-- The freedom of an alignment, in terms of the shared names. -/
theorem ambiguous_iff : a.ambiguous b = true ↔ a.common b = [] ∨
    (¬∃ u ∈ a.common b, ∃ v ∈ a.common b, u ≠ v ∧ a.Apart u v ∧ b.Apart u v) ∧
      (2 ≤ (a.common b).length ∨ 1 < a.size ∧ 1 < b.size) := by
  rw [← exists_distinct_iff, ← List.length_eq_zero_iff, ← length_shared, ambiguous, basis]
  cases hfind : (pairs (a.shared b)).find? fun s => s.1.distinct s.2 with
  | some s =>
    -- A pair that is apart in both fixes the alignment.
    have hmem := List.mem_of_find?_eq_some hfind
    have hne : (a.shared b).length ≠ 0 := fun h => by
      rw [List.length_eq_zero_iff.1 h] at hmem
      cases hmem
    have hdistinct : s.1.distinct s.2 = true :=
      List.find?_some (p := fun s : Shared × Shared => s.1.distinct s.2) hfind
    have hex : ∃ s ∈ pairs (a.shared b), s.1.distinct s.2 = true := ⟨s, hmem, hdistinct⟩
    simp [hne, hex]
  | none =>
    -- Without one, the number of shared names decides.
    have hno : ¬∃ s ∈ pairs (a.shared b), s.1.distinct s.2 = true := fun ⟨s, hs, hd⟩ =>
      List.find?_eq_none.1 hfind s hs hd
    simp only [hno, not_false_eq_true, true_and]
    cases a.shared b with
    | nil => simp
    | cons s rest => simp [Nat.succ_le_iff]

/-! ### Unions -/

/-- What a union of two configurations has: the names of both in order, the positions of the first
one, and a flag that says whether something was left free. -/
structure Unites (a b c : Configuration) : Prop where
  names_eq : c.names = a.names ++ b.names.filter fun v => v ∉ a.names
  position?_eq : ∀ v ∈ a.names, c.position? v = a.position? v
  underconstrained_iff : c.underconstrained = true ↔
    a.underconstrained = true ∨ b.underconstrained = true ∨ a.common b = [] ∨
      (¬∃ u ∈ a.common b, ∃ v ∈ a.common b, u ≠ v ∧ a.Apart u v ∧ b.Apart u v) ∧
        (2 ≤ (a.common b).length ∨ 1 < a.size ∧ 1 < b.size)

theorem names_uniteAlong (f : Frame) (a b : Configuration) :
    (uniteAlong f a b).names = a.names ++ b.names.filter fun v => v ∉ a.names :=
  OrderedMap.keys_foldl_insertNew b.points.nodup a.points

theorem unites_uniteAlong (f : Frame) (a b : Configuration) : a.Unites b (uniteAlong f a b) where
  names_eq := names_uniteAlong f a b
  position?_eq := by
    intro v hv
    obtain ⟨e, he, rfl⟩ := List.mem_map.1 hv
    have hp : a.position? e.1 = some e.2 := OrderedMap.find?_eq_some.2 he
    rw [hp, extends_uniteAlong f a b _ _ hp]
  underconstrained_iff := by
    show (a.ambiguous b || (a.underconstrained || b.underconstrained)) = true ↔ _
    rw [Bool.or_eq_true, Bool.or_eq_true, ambiguous_iff, or_comm, or_assoc]

/-- Both unions list the names of the first configuration and then the new ones of the second, and
leave the first where it was.  They are flagged just if one of the two is flagged, or nothing is
shared, or no two shared points are apart in both and either two points are shared or both have
more than one point. -/
theorem merge_unites (a b : Configuration) :
    a.Unites b (a.merge b) ∧ a.Unites b (a.mergeScaled b) :=
  ⟨unites_uniteAlong _ a b, unites_uniteAlong _ a b⟩

end Configuration

end PlanarSketch
