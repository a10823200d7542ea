/-
A cluster enumerates what it implies.

The relations of a cluster are listed pair by pair: the distance of every pair
of points, and at every vertex the angle between every pair of others.  Names
are kept sorted, so a pair has its smaller name first, as a relation in
canonical order has.  Hence each relation between different points that the
cluster implies is listed once, and their number is a number of pairs or three
times a number of triples.

* `Relation.Canonical`: the relations in canonical order;
* `NameSet.mem_pairs_iff`, `nodup_pairs`: the pairs of a sorted set;
* `Cluster.Valid.mem_relations_iff`, `Cluster.nodup_relations`: the relations
  that are listed;
* `Cluster.length_counted`, `Cluster.relationCount_eq`: how many there are;
* `Cluster.relations_enumerate`: all of it for a valid cluster.
-/
import Mathlib.Data.Nat.Choose.Basic
import PlanarSketch.Proofs.Meet

namespace PlanarSketch

/-- A relation whose points are in the order that `between` gives them. -/
inductive Relation.Canonical : Relation → Prop
  | distance (a b : PointName) : Canonical (.distance (.between a b))
  | angle (a vertex c : PointName) : Canonical (.angle (.between a vertex c))

/-- Whether the relation is a distance. -/
def Relation.isDistance : Relation → Bool
  | .distance _ => true
  | .angle _ => false

theorem Distance.between_of_lt {a b : PointName} (h : a < b) : between a b = ⟨a, b⟩ :=
  if_pos (Std.le_of_lt h)

theorem Angle.between_of_lt {a vertex c : PointName} (h : a < c) :
    between a vertex c = ⟨a, vertex, c⟩ :=
  if_pos (Std.le_of_lt h)

theorem Relation.canonical_distance_iff {d : Distance} :
    Relation.Canonical (.distance d) ↔ d.a ≤ d.b := by
  constructor
  · intro h
    cases h with
    | distance a b =>
      unfold Distance.between
      split
      · assumption
      · rename_i hab
        exact (String.le_total a b).resolve_left hab
  · intro h
    rw [show d = Distance.between d.a d.b from (if_pos h).symm]
    exact .distance d.a d.b

theorem Relation.canonical_angle_iff {a : Angle} : Relation.Canonical (.angle a) ↔ a.a ≤ a.c := by
  constructor
  · intro h
    cases h with
    | angle a vertex c =>
      unfold Angle.between
      split
      · assumption
      · rename_i hac
        exact (String.le_total a c).resolve_left hac
  · intro h
    rw [show a = Angle.between a.a a.vertex a.c from (if_pos h).symm]
    exact .angle a.a a.vertex a.c

theorem PointName.lt_iff {a b : PointName} : a < b ↔ a ≤ b ∧ a ≠ b :=
  ⟨fun h => ⟨Std.le_of_lt h, fun he => String.lt_irrefl a (he ▸ h)⟩,
    fun h => Std.lt_of_le_of_ne h.1 h.2⟩

/-! ### Pairs -/

section Pairs

variable {α : Type}

theorem nodup_pairs {l : List α} (h : l.Nodup) : (pairs l).Nodup := by
  induction l with
  | nil => exact List.nodup_nil
  | cons a rest ih =>
    obtain ⟨ha, hrest⟩ := List.nodup_cons.1 h
    have hmap : (rest.map fun b => (a, b)).Nodup :=
      List.pairwise_map.2 (hrest.imp fun hne he => hne (Prod.mk.inj he).2)
    refine List.nodup_append.2 ⟨hmap, ih hrest, ?_⟩
    rintro p hp _ hq rfl
    obtain ⟨b, -, rfl⟩ := List.mem_map.1 hp
    exact ha ((mem_pairs_iff.1 hq).subset List.mem_cons_self)

theorem length_pairs_eq_choose (l : List α) : (pairs l).length = l.length.choose 2 := by
  have htwice := length_pairs l
  rw [Nat.choose_two_right]
  omega

end Pairs

namespace NameSet

variable {s : NameSet} {a b : PointName}

/-- A pair of a set has its smaller name first. -/
theorem mem_pairs_iff : (a, b) ∈ pairs s.toList ↔ a ∈ s ∧ b ∈ s ∧ a < b := by
  have hsub : ∀ {c d : PointName}, (c, d) ∈ pairs s.toList → c ∈ s ∧ d ∈ s ∧ c < d := by
    intro c d h
    have hcd := PlanarSketch.mem_pairs_iff.1 h
    exact ⟨hcd.subset (by simp), hcd.subset (by simp),
      List.rel_of_pairwise_cons (s.sorted.sublist hcd) List.mem_cons_self⟩
  refine ⟨hsub, fun ⟨ha, hb, hlt⟩ => ?_⟩
  refine (mem_pairs_or ha hb (PointName.lt_iff.1 hlt).2).resolve_right fun h => ?_
  exact String.lt_asymm hlt (hsub h).2.2

theorem size_erase (h : a ∈ s) : (s.erase a).size + 1 = s.size := by
  have herase : (s.erase a).toList = s.toList.erase a := by
    rw [s.nodup_toList.erase_eq_filter]
    exact List.filter_congr fun b _ => by rw [bne, beq_eq_decide, ← decide_not]
  rw [size, herase, List.length_erase_of_mem h, size]
  exact Nat.sub_add_cancel (List.length_pos_of_mem h)

end NameSet

namespace Cluster

variable {c : Cluster} {p outer : NameSet} {vertex : PointName} {r : Relation} {d : Distance}
  {a : Angle}

/-! ### What is listed -/

theorem distancesAmong_eq (p : NameSet) :
    distancesAmong p = (pairs p.toList).map fun q => .distance ⟨q.1, q.2⟩ :=
  List.map_congr_left fun _ hq => by
    rw [Distance.between_of_lt (NameSet.mem_pairs_iff.1 hq).2.2]

theorem anglesAt_eq (vertex : PointName) (outer : NameSet) :
    anglesAt vertex outer.toList = (pairs outer.toList).map fun q => .angle ⟨q.1, vertex, q.2⟩ :=
  List.map_congr_left fun _ hq => by
    rw [Angle.between_of_lt (NameSet.mem_pairs_iff.1 hq).2.2]

theorem isDistance_of_mem_distancesAmong (h : r ∈ distancesAmong p) : r.isDistance = true := by
  obtain ⟨q, -, rfl⟩ := List.mem_map.1 h
  rfl

theorem isDistance_of_mem_anglesAt {l : List PointName} (h : r ∈ anglesAt vertex l) :
    r.isDistance = false := by
  obtain ⟨q, -, rfl⟩ := List.mem_map.1 h
  rfl

theorem isDistance_of_mem_anglesAmong (h : r ∈ anglesAmong p) : r.isDistance = false := by
  obtain ⟨v, -, h⟩ := List.mem_flatMap.1 h
  exact isDistance_of_mem_anglesAt h

theorem distance_mem_distancesAmong :
    .distance d ∈ distancesAmong p ↔ d.a ∈ p ∧ d.b ∈ p ∧ d.a < d.b := by
  rw [distancesAmong_eq, List.mem_map, ← NameSet.mem_pairs_iff]
  constructor
  · rintro ⟨q, hq, he⟩
    cases he
    exact hq
  · exact fun h => ⟨_, h, rfl⟩

theorem angle_mem_anglesAt : .angle a ∈ anglesAt vertex outer.toList ↔
    a.vertex = vertex ∧ a.a ∈ outer ∧ a.c ∈ outer ∧ a.a < a.c := by
  rw [anglesAt_eq, List.mem_map, ← NameSet.mem_pairs_iff]
  constructor
  · rintro ⟨q, hq, he⟩
    cases he
    exact ⟨rfl, hq⟩
  · rintro ⟨rfl, h⟩
    exact ⟨_, h, rfl⟩

theorem angle_mem_anglesAmong : .angle a ∈ anglesAmong p ↔
    a.vertex ∈ p ∧ a.a ∈ p.erase a.vertex ∧ a.c ∈ p.erase a.vertex ∧ a.a < a.c := by
  rw [anglesAmong, List.mem_flatMap]
  constructor
  · rintro ⟨v, hv, h⟩
    obtain ⟨rfl, h⟩ := angle_mem_anglesAt.1 h
    exact ⟨hv, h⟩
  · exact fun ⟨hv, h⟩ => ⟨a.vertex, hv, angle_mem_anglesAt.2 ⟨rfl, h⟩⟩

/-- A relation is listed if it is in canonical order, between different points, and implied. -/
theorem Valid.mem_relations_iff (hc : c.Valid) :
    r ∈ c.relations ↔ r.Canonical ∧ r.Distinct ∧ c.implies r = true := by
  cases r with
  | distance d =>
    rw [Relation.canonical_distance_iff, implies_distance_iff, ← and_assoc,
      show Relation.Distinct (.distance d) ↔ d.a ≠ d.b from Iff.rfl, ← PointName.lt_iff]
    cases c with
    | rigid p =>
      have hno : Relation.distance d ∉ anglesAmong p := fun h => by
        cases isDistance_of_mem_anglesAmong h
      rw [relations, List.mem_append, or_iff_left hno, distance_mem_distancesAmong]
      constructor
      · rintro ⟨ha, hb, hlt⟩
        exact ⟨hlt, rfl, ha, hb⟩
      · rintro ⟨hlt, -, ha, hb⟩
        exact ⟨ha, hb, hlt⟩
    | balloon p =>
      refine iff_of_false (fun h => ?_) fun h => ?_
      · cases isDistance_of_mem_anglesAmong h
      · cases h.2.1
    | hedgehog centre arms =>
      refine iff_of_false (fun h => ?_) fun h => ?_
      · cases isDistance_of_mem_anglesAt h
      · cases h.2.1
  | angle a =>
    have hamong : ∀ (p : NameSet), .angle a ∈ anglesAmong p ↔ Relation.Canonical (.angle a) ∧
        Relation.Distinct (.angle a) ∧ a.vertex ∈ p ∧ a.a ∈ p ∧ a.c ∈ p := by
      intro p
      rw [angle_mem_anglesAmong, Relation.canonical_angle_iff, NameSet.mem_erase,
        NameSet.mem_erase, PointName.lt_iff]
      simp only [Relation.Distinct]
      tauto
    cases c with
    | rigid p =>
      have hno : Relation.angle a ∉ distancesAmong p := fun h => by
        cases isDistance_of_mem_distancesAmong h
      rw [relations, List.mem_append, or_iff_right hno, hamong, implies_angle_iff (by simp [kind])]
      rfl
    | balloon p =>
      rw [relations, hamong, implies_angle_iff (by simp [kind])]
      rfl
    | hedgehog centre arms =>
      -- The centre is none of the arms.
      have hcentre := (valid_hedgehog_iff.1 hc).1
      rw [relations, angle_mem_anglesAt, hedgehog_implies_angle_iff, Relation.canonical_angle_iff,
        PointName.lt_iff]
      simp only [Relation.Distinct]
      constructor
      · rintro ⟨rfl, ha, hc, hle, hne⟩
        exact ⟨hle, ⟨fun he => hcentre (he ▸ ha), fun he => hcentre (he ▸ hc), hne⟩, rfl, ha, hc⟩
      · rintro ⟨hle, ⟨-, -, hne⟩, hv, ha, hc⟩
        exact ⟨hv, ha, hc, hle, hne⟩

/-! ### Repetitions -/

theorem nodup_distancesAmong (p : NameSet) : (distancesAmong p).Nodup := by
  rw [distancesAmong_eq]
  refine List.pairwise_map.2 ((nodup_pairs p.nodup_toList).imp fun hne he => hne ?_)
  obtain ⟨ha, hb⟩ := Distance.mk.inj (Relation.distance.inj he)
  exact Prod.ext ha hb

theorem nodup_anglesAt (vertex : PointName) (outer : NameSet) :
    (anglesAt vertex outer.toList).Nodup := by
  rw [anglesAt_eq]
  refine List.pairwise_map.2 ((nodup_pairs outer.nodup_toList).imp fun hne he => hne ?_)
  obtain ⟨ha, -, hc⟩ := Angle.mk.inj (Relation.angle.inj he)
  exact Prod.ext ha hc

theorem nodup_anglesAmong (p : NameSet) : (anglesAmong p).Nodup := by
  refine List.pairwise_flatMap.2 ⟨fun v _ => nodup_anglesAt v _, ?_⟩
  refine p.nodup_toList.imp fun {v w} hvw r hr s hs he => hvw ?_
  -- The angles at two vertices differ in their vertex.
  cases r with
  | distance d => cases isDistance_of_mem_anglesAt hr
  | angle a =>
    subst he
    exact (angle_mem_anglesAt.1 hr).1.symm.trans (angle_mem_anglesAt.1 hs).1

theorem nodup_relations (c : Cluster) : c.relations.Nodup := by
  cases c with
  | rigid p =>
    refine List.nodup_append.2 ⟨nodup_distancesAmong p, nodup_anglesAmong p, ?_⟩
    rintro r hr _ hs rfl
    have hdistance := isDistance_of_mem_distancesAmong hr
    rw [isDistance_of_mem_anglesAmong hs] at hdistance
    cases hdistance
  | balloon p => exact nodup_anglesAmong p
  | hedgehog centre arms => exact nodup_anglesAt centre arms

/-! ### Numbers -/

theorem length_anglesAt (vertex : PointName) (outer : NameSet) :
    (anglesAt vertex outer.toList).length = outer.size.choose 2 := by
  rw [anglesAt, List.length_map, length_pairs_eq_choose]
  rfl

/-- Every three points have an angle at each of them. -/
theorem length_anglesAmong (p : NameSet) : (anglesAmong p).length = 3 * p.size.choose 3 := by
  have hsame : p.toList.map (fun v => (anglesAt v (p.erase v).toList).length) =
      p.toList.map fun _ => (p.size - 1).choose 2 := by
    refine List.map_congr_left fun v hv => ?_
    rw [length_anglesAt, ← NameSet.size_erase hv]
    rfl
  rw [anglesAmong, List.length_flatMap, hsame, List.map_const', List.sum_replicate_nat]
  show p.size * (p.size - 1).choose 2 = _
  cases p.size with
  | zero => rfl
  | succ n =>
    rw [Nat.add_sub_cancel, Nat.add_one_mul_choose_eq, Nat.mul_comm]

theorem chooseThree_eq (n : Nat) : chooseThree n = n.choose 3 := by
  unfold chooseThree
  split
  · rename_i hn
    rw [Nat.choose_eq_zero_of_lt hn]
  · rename_i hn
    obtain ⟨k, rfl⟩ := Nat.exists_eq_add_of_le' (Nat.not_lt.1 hn)
    -- Choosing one after the other counts every pair twice and every triple three times as often
    -- as the pairs.
    have h₂ : (k + 2) * (k + 1) = (k + 2).choose 2 * 2 := by
      have h := Nat.add_one_mul_choose_eq (k + 1) 1
      rwa [Nat.choose_one_right] at h
    have h₃ : (k + 3) * (k + 2).choose 2 = (k + 3).choose 3 * 3 :=
      Nat.add_one_mul_choose_eq (k + 2) 2
    refine Nat.div_eq_of_eq_mul_left (by decide) ?_
    calc (k + 3) * (k + 3 - 1) * (k + 3 - 2)
        = (k + 3) * ((k + 2) * (k + 1)) := Nat.mul_assoc _ _ _
      _ = (k + 3) * (k + 2).choose 2 * 2 := by rw [h₂, Nat.mul_assoc]
      _ = (k + 3).choose 3 * 6 := by rw [h₃, Nat.mul_assoc]

/-- The number of pairs of points of a rigid, of pairs of arms of a hedgehog, and three times the
number of triples of points of a balloon. -/
def choices : Cluster → Nat
  | .rigid p => p.size.choose 2
  | .balloon p => 3 * p.size.choose 3
  | .hedgehog _ arms => arms.size.choose 2

theorem relationCount_eq (c : Cluster) : c.relationCount = c.choices := by
  cases c with
  | rigid p => exact (Nat.choose_two_right p.size).symm
  | balloon p => rw [relationCount, chooseThree_eq, choices]
  | hedgehog centre arms => exact (Nat.choose_two_right arms.size).symm

/-- The relations by which a cluster is counted: of a rigid the distances, of the others all. -/
def counted (c : Cluster) : List Relation :=
  if c.isRigid then c.relations.filter Relation.isDistance else c.relations

theorem length_counted (c : Cluster) : c.counted.length = c.choices := by
  cases c with
  | rigid p =>
    have hdistances : (distancesAmong p).filter Relation.isDistance = distancesAmong p :=
      List.filter_eq_self.2 fun r hr => isDistance_of_mem_distancesAmong hr
    have hangles : (anglesAmong p).filter Relation.isDistance = [] :=
      List.filter_eq_nil_iff.2 fun r hr => by simp [isDistance_of_mem_anglesAmong hr]
    show ((distancesAmong p ++ anglesAmong p).filter Relation.isDistance).length = _
    rw [List.filter_append, hdistances, hangles, List.append_nil, distancesAmong, List.length_map,
      length_pairs_eq_choose]
    rfl
  | balloon p => exact length_anglesAmong p
  | hedgehog centre arms => exact length_anglesAt centre arms

/-- The relations of a valid cluster are the relations in canonical order between different points
that it implies, each of them once.  The distances of a rigid, and all relations of the others, are
as many as the cluster counts: one for every pair, or three for every triple of a balloon. -/
theorem relations_enumerate (hc : c.Valid) :
    c.relations.Nodup ∧
      (∀ r, r ∈ c.relations ↔ r.Canonical ∧ r.Distinct ∧ c.implies r = true) ∧
      c.counted.length = c.relationCount ∧ c.relationCount = c.choices :=
  ⟨c.nodup_relations, fun _ => hc.mem_relations_iff,
    c.length_counted.trans c.relationCount_eq.symm, c.relationCount_eq⟩

/-- A balloon of four points has three angles at each of them. -/
theorem relations_enumerate_balloon :
    (balloon (.ofList ["a", "b", "c", "d"])).Valid ∧
      (balloon (.ofList ["a", "b", "c", "d"])).relations.Nodup ∧
      (balloon (.ofList ["a", "b", "c", "d"])).relations.length = 12 ∧
      .angle ⟨"b", "c", "d"⟩ ∈ (balloon (.ofList ["a", "b", "c", "d"])).relations := by
  have hvalid : (balloon (.ofList ["a", "b", "c", "d"])).Valid := by decide
  obtain ⟨hnodup, hmem, hcount, -⟩ := relations_enumerate hvalid
  refine ⟨hvalid, hnodup, hcount.trans (by decide), (hmem _).2 ⟨?_, ?_, by decide⟩⟩
  · exact Relation.canonical_angle_iff.2 (by decide)
  · exact ⟨by decide, by decide, by decide⟩

end Cluster

end PlanarSketch
