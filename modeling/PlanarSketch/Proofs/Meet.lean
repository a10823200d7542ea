/-
The intersection of clusters is a meet.

A cluster is worth the relations between different points that it implies.
With two points or more it implies at least one, and no other cluster implies
the same ones.  The intersection of two clusters implies just what both of
them imply, so the laws of a meet follow from those of "and".

* `Relation.Distinct`: the relations between different points;
* `Solid.weaker`, `Solid.exists_implies`: they tell clusters apart;
* `implies_intersection_iff`: an intersection implies what both clusters imply;
* `intersection_isMeet`: so it is their meet.
-/
import PlanarSketch.Proofs.Overlap

namespace PlanarSketch

/-- The points of the relation are pairwise different. -/
def Relation.Distinct : Relation → Prop
  | .distance d => d.a ≠ d.b
  | .angle a => a.a ≠ a.vertex ∧ a.c ≠ a.vertex ∧ a.a ≠ a.c

/-! ### Further names of a set -/

namespace NameSet

variable {s : NameSet}

theorem exists_other (h : 2 ≤ s.size) (a : PointName) : ∃ b, b ∈ s ∧ b ≠ a := by
  obtain ⟨b, c, hb, hc, hbc⟩ := two_le_size_iff.1 h
  by_cases hba : b = a
  · exact ⟨c, hc, fun hca => hbc (hba.trans hca.symm)⟩
  · exact ⟨b, hb, hba⟩

theorem exists_two_others (h : 3 ≤ s.size) (a : PointName) :
    ∃ b c, b ∈ s ∧ c ∈ s ∧ b ≠ a ∧ c ≠ a ∧ b ≠ c := by
  have hle : s.size ≤ ((s.erase a).toList ++ [a]).length := by
    refine size_le_of_mem_imp fun b hb => ?_
    by_cases hba : b = a
    · simp [hba]
    · simp [hb, hba]
  have h2 : 2 ≤ (s.erase a).size := by
    simp only [List.length_append, List.length_singleton] at hle
    have heq : (s.erase a).size = (s.erase a).toList.length := rfl
    omega
  obtain ⟨b, c, hb, hc, hbc⟩ := two_le_size_iff.1 h2
  rw [mem_erase] at hb hc
  exact ⟨b, c, hb.1, hc.1, hb.2, hc.2, hbc⟩

end NameSet

namespace Cluster

variable {c e f o s : Cluster} {r : Relation}

/-! ### What a cluster is worth -/

theorem implies_distance_iff {d : Distance} :
    c.implies (.distance d) = true ↔ c.isRigid = true ∧ d.a ∈ c ∧ d.b ∈ c := by
  cases c <;> simp [implies]

theorem implies_angle_iff (hc : c.kind ≠ .hedgehog) {a : Angle} :
    c.implies (.angle a) = true ↔ a.vertex ∈ c ∧ a.a ∈ c ∧ a.c ∈ c :=
  ⟨mem_of_implies_angle, implies_angle_of_mem hc⟩

theorem hedgehog_implies_angle_iff {centre : PointName} {arms : NameSet} {a : Angle} :
    (hedgehog centre arms).implies (.angle a) = true ↔
      a.vertex = centre ∧ a.a ∈ arms ∧ a.c ∈ arms := by
  simp [implies]

/-- A valid cluster of two points or more. -/
structure Solid (c : Cluster) : Prop where
  valid : c.Valid
  two_le : 2 ≤ c.points.size

/-- A cluster of two points or more implies something. -/
theorem Solid.exists_implies (hc : c.Solid) : ∃ r, r.Distinct ∧ c.implies r = true := by
  cases c with
  | rigid p =>
    obtain ⟨a, b, ha, hb, hab⟩ := NameSet.two_le_size_iff.1 hc.two_le
    exact ⟨.distance ⟨a, b⟩, hab, implies_distance_iff.2 ⟨rfl, ha, hb⟩⟩
  | hedgehog centre arms =>
    obtain ⟨hcentre, h2⟩ := valid_hedgehog_iff.1 hc.valid
    obtain ⟨a, b, ha, hb, hab⟩ := NameSet.two_le_size_iff.1 h2
    have hac : a ≠ centre := fun h => hcentre (h ▸ ha)
    have hbc : b ≠ centre := fun h => hcentre (h ▸ hb)
    exact ⟨.angle ⟨a, centre, b⟩, ⟨hac, hbc, hab⟩, hedgehog_implies_angle_iff.2 ⟨rfl, ha, hb⟩⟩
  | balloon p =>
    obtain ⟨v, hv⟩ := hc.valid.exists_mem
    obtain ⟨a, b, ha, hb, hav, hbv, hab⟩ :=
      NameSet.exists_two_others (valid_balloon_iff.1 hc.valid) v
    exact ⟨.angle ⟨a, v, b⟩, ⟨hav, hbv, hab⟩, (implies_angle_iff (by simp [kind])).2 ⟨hv, ha, hb⟩⟩

/-- The relations between different points are enough to compare a cluster with another. -/
theorem Solid.weaker (hc : c.Solid)
    (h : ∀ r : Relation, r.Distinct → c.implies r = true → o.implies r = true) : c.Weaker o := by
  cases c with
  | rigid p =>
    -- Every point has a distance to another one.
    have hpoint : ∀ v, v ∈ p → o.isRigid = true ∧ v ∈ o := by
      intro v hv
      obtain ⟨w, hw, hwv⟩ := NameSet.exists_other hc.two_le v
      have hr := h (.distance ⟨w, v⟩) hwv (implies_distance_iff.2 ⟨rfl, hw, hv⟩)
      rw [implies_distance_iff] at hr
      exact ⟨hr.1, hr.2.2⟩
    obtain ⟨v, hv⟩ := hc.valid.exists_mem
    have hrigid := (hpoint v hv).1
    have hkind : o.kind ≠ .hedgehog := by simp [isRigid_iff.1 hrigid]
    exact weaker_of_points hkind (fun _ => hrigid) fun v hv => (hpoint v hv).2
  | balloon p =>
    -- Every point is the vertex of an angle.
    have hangle : ∀ v, v ∈ p → ∃ a b, o.implies (.angle ⟨a, v, b⟩) = true := by
      intro v hv
      obtain ⟨a, b, ha, hb, hav, hbv, hab⟩ :=
        NameSet.exists_two_others (valid_balloon_iff.1 hc.valid) v
      have himplies := (implies_angle_iff (c := balloon p) (a := ⟨a, v, b⟩)
        (by simp [kind])).2 ⟨hv, ha, hb⟩
      exact ⟨a, b, h _ ⟨hav, hbv, hab⟩ himplies⟩
    have hkind : o.kind ≠ .hedgehog := by
      intro hk
      obtain ⟨centre, arms, rfl⟩ := kind_eq_hedgehog_iff.1 hk
      obtain ⟨v, w, hv, hw, hvw⟩ := NameSet.two_le_size_iff.1 hc.two_le
      obtain ⟨a, b, hr⟩ := hangle v hv
      obtain ⟨a', b', hr'⟩ := hangle w hw
      rw [hedgehog_implies_angle_iff] at hr hr'
      exact hvw (hr.1.trans hr'.1.symm)
    refine weaker_of_points hkind (fun hr => by simp at hr) fun v hv => ?_
    obtain ⟨a, b, hr⟩ := hangle v hv
    exact (mem_of_implies_angle hr).1
  | hedgehog centre arms =>
    obtain ⟨hcentre, h2⟩ := valid_hedgehog_iff.1 hc.valid
    -- Every arm has an angle to another one.
    have harm : ∀ v, v ∈ arms → ∃ w, o.implies (.angle ⟨v, centre, w⟩) = true := by
      intro v hv
      obtain ⟨w, hw, hwv⟩ := NameSet.exists_other h2 v
      have hvc : v ≠ centre := fun he => hcentre (he ▸ hv)
      have hwc : w ≠ centre := fun he => hcentre (he ▸ hw)
      exact ⟨w, h _ ⟨hvc, hwc, hwv.symm⟩ (hedgehog_implies_angle_iff.2 ⟨rfl, hv, hw⟩)⟩
    obtain ⟨a, -, ha, -, -⟩ := NameSet.two_le_size_iff.1 h2
    obtain ⟨b, hab⟩ := harm a ha
    by_cases hk : o.kind = .hedgehog
    · obtain ⟨centre', arms', rfl⟩ := kind_eq_hedgehog_iff.1 hk
      obtain ⟨rfl, -, -⟩ := hedgehog_implies_angle_iff.1 hab
      refine weaker_of_arms fun v hv => ?_
      obtain ⟨w, hr⟩ := harm v hv
      exact (hedgehog_implies_angle_iff.1 hr).2.1
    · refine weaker_of_points hk (fun hr => by simp at hr) fun v hv => ?_
      rcases mem_hedgehog.1 hv with rfl | hv
      · exact (mem_of_implies_angle hab).1
      · obtain ⟨w, hr⟩ := harm v hv
        exact (mem_of_implies_angle hr).2.1

/-- Where something is implied there is a cluster. -/
theorem eq_none_of_implies {o o' : Option Cluster} (ho : ∀ s, o = some s → s.Solid)
    (h : ∀ r : Relation, r.Distinct → (∃ s, o = some s ∧ s.implies r = true) →
      ∃ s, o' = some s ∧ s.implies r = true) (hnone : o' = none) : o = none := by
  rw [Option.eq_none_iff_forall_ne_some]
  intro s hs
  obtain ⟨r, hr, himplies⟩ := (ho s hs).exists_implies
  obtain ⟨s', hs', -⟩ := h r hr ⟨s, hs, himplies⟩
  rw [hnone] at hs'
  cases hs'

/-- Two clusters, or the lack of them, are the same if they imply the same relations between
different points. -/
theorem eq_of_implies_iff {o o' : Option Cluster} (ho : ∀ s, o = some s → s.Solid)
    (ho' : ∀ s, o' = some s → s.Solid)
    (h : ∀ r : Relation, r.Distinct →
      ((∃ s, o = some s ∧ s.implies r = true) ↔ ∃ s, o' = some s ∧ s.implies r = true)) :
    o = o' := by
  cases hs : o with
  | none => exact (eq_none_of_implies ho' (fun r hr => (h r hr).2) hs).symm
  | some s =>
    cases hs' : o' with
    | none =>
      have hnone := eq_none_of_implies ho (fun r hr => (h r hr).1) hs'
      rw [hs] at hnone
      cases hnone
    | some s' =>
      have hsolid := ho s hs
      have hsolid' := ho' s' hs'
      -- Two solid clusters that imply the same are weaker than one another.
      have hiff : ∀ r : Relation, r.Distinct → (s.implies r = true ↔ s'.implies r = true) := by
        intro r hr
        have hr' := h r hr
        simpa [hs, hs'] using hr'
      have hle := hsolid.weaker fun r hr => (hiff r hr).1
      have hge := hsolid'.weaker fun r hr => (hiff r hr).2
      rw [hle.antisymm hge hsolid.valid hsolid'.valid]

/-! ### Intersections -/

/-- What is left of a hedgehog is still solid. -/
theorem solid_hedgehog_filter {centre : PointName} {arms : NameSet} {p : PointName → Bool}
    (h : (hedgehog centre arms).Valid) (h2 : 2 ≤ (arms.filter p).size) :
    (hedgehog centre (arms.filter p)).Solid := by
  have hcentre : centre ∉ arms.filter p :=
    fun hmem => (valid_hedgehog_iff.1 h).1 (NameSet.mem_filter.1 hmem).1
  have hle : (arms.filter p).size ≤ (hedgehog centre (arms.filter p)).points.size :=
    NameSet.size_le_of_subset fun v hv => mem_hedgehog.2 (.inr hv)
  exact ⟨valid_hedgehog_iff.2 ⟨hcentre, h2⟩, by omega⟩

theorem Valid.solid_intersection_hedgehog {centre : PointName} {arms : NameSet}
    (h : (hedgehog centre arms).Valid) (hc : c.kind ≠ .hedgehog)
    (hs : c.intersection (hedgehog centre arms) = some s) : s.Solid := by
  obtain ⟨-, h2, rfl⟩ := (intersection_hedgehog hc).1 hs
  exact solid_hedgehog_filter h h2

/-- An intersection of valid clusters is valid and has two points or more. -/
theorem Valid.solid_intersection (hc : c.Valid) (he : e.Valid) (h : c.intersection e = some s) :
    s.Solid := by
  -- The case split is that of the definition: which of the two are hedgehogs, then whether both
  -- are rigid.
  by_cases hck : c.kind = .hedgehog
  · obtain ⟨centre, arms, rfl⟩ := kind_eq_hedgehog_iff.1 hck
    by_cases hek : e.kind = .hedgehog
    · obtain ⟨centre', arms', rfl⟩ := kind_eq_hedgehog_iff.1 hek
      obtain ⟨-, h2, rfl⟩ := intersection_hedgehogs.1 h
      exact solid_hedgehog_filter hc h2
    · rw [hedgehog_intersection hek] at h
      exact hc.solid_intersection_hedgehog hek h
  · by_cases hek : e.kind = .hedgehog
    · obtain ⟨centre, arms, rfl⟩ := kind_eq_hedgehog_iff.1 hek
      exact he.solid_intersection_hedgehog hck h
    · by_cases hr : c.isRigid = true ∧ e.isRigid = true
      · obtain ⟨h2, rfl⟩ := (intersection_of_isRigid hr.1 hr.2).1 h
        obtain ⟨a, b, ha, -, -⟩ := NameSet.two_le_size_iff.1 h2
        exact ⟨valid_rigid_iff.2 ⟨a, ha⟩, h2⟩
      · rw [not_and_or, Bool.not_eq_true, Bool.not_eq_true] at hr
        obtain ⟨h3, rfl⟩ := (intersection_of_not_isRigid hck hek hr).1 h
        exact ⟨valid_balloon_iff.2 h3, Nat.le_of_succ_le h3⟩

/-- A hedgehog and a cluster of another kind have in common the angles that both imply. -/
theorem exists_intersection_hedgehog {centre : PointName} {arms : NameSet}
    (hc : c.kind ≠ .hedgehog) (hr : r.Distinct) (h : c.implies r = true)
    (h' : (hedgehog centre arms).implies r = true) :
    ∃ s, c.intersection (hedgehog centre arms) = some s ∧ s.implies r = true := by
  match r with
  | .distance d => simp [implies_distance_iff] at h'
  | .angle a =>
    rw [implies_angle_iff hc] at h
    rw [hedgehog_implies_angle_iff] at h'
    obtain ⟨rfl, ha, hb⟩ := h'
    have ha' : a.a ∈ arms.filter fun v => v ∈ c := by simp [ha, h.2.1]
    have hb' : a.c ∈ arms.filter fun v => v ∈ c := by simp [hb, h.2.2]
    have h2 := NameSet.two_le_size_iff.2 ⟨_, _, ha', hb', hr.2.2⟩
    exact ⟨_, (intersection_hedgehog hc).2 ⟨h.1, h2, rfl⟩,
      hedgehog_implies_angle_iff.2 ⟨rfl, ha', hb'⟩⟩

/-- Two clusters of which neither is a hedgehog have in common the relations that both imply. -/
theorem exists_intersection_points (hc : c.kind ≠ .hedgehog) (he : e.kind ≠ .hedgehog)
    (hr : r.Distinct) (h : c.implies r = true) (h' : e.implies r = true) :
    ∃ s, c.intersection e = some s ∧ s.implies r = true := by
  match r with
  | .distance d =>
    -- Only rigids imply distances, so both are rigid, and the ends are shared.
    rw [implies_distance_iff] at h h'
    have ha : d.a ∈ c.shared e := mem_shared.2 ⟨h.2.1, h'.2.1⟩
    have hb : d.b ∈ c.shared e := mem_shared.2 ⟨h.2.2, h'.2.2⟩
    have h2 := NameSet.two_le_size_iff.2 ⟨_, _, ha, hb, hr⟩
    exact ⟨_, (intersection_of_isRigid h.1 h'.1).2 ⟨h2, rfl⟩, implies_distance_iff.2 ⟨rfl, ha, hb⟩⟩
  | .angle a =>
    rw [implies_angle_iff hc] at h
    rw [implies_angle_iff he] at h'
    have hv : a.vertex ∈ c.shared e := mem_shared.2 ⟨h.1, h'.1⟩
    have ha : a.a ∈ c.shared e := mem_shared.2 ⟨h.2.1, h'.2.1⟩
    have hb : a.c ∈ c.shared e := mem_shared.2 ⟨h.2.2, h'.2.2⟩
    -- Two shared points make a rigid, but a balloon takes three; an angle has three.
    by_cases hrigid : c.isRigid = true ∧ e.isRigid = true
    · have h2 := NameSet.two_le_size_iff.2 ⟨_, _, ha, hb, hr.2.2⟩
      exact ⟨_, (intersection_of_isRigid hrigid.1 hrigid.2).2 ⟨h2, rfl⟩,
        (implies_angle_iff (by simp [kind])).2 ⟨hv, ha, hb⟩⟩
    · rw [not_and_or, Bool.not_eq_true, Bool.not_eq_true] at hrigid
      have h3 := NameSet.three_le_size hv ha hb hr.1.symm hr.2.1.symm hr.2.2
      exact ⟨_, (intersection_of_not_isRigid hc he hrigid).2 ⟨h3, rfl⟩,
        (implies_angle_iff (by simp [kind])).2 ⟨hv, ha, hb⟩⟩

/-- An intersection implies, of the relations between different points, just those that both
clusters imply. -/
theorem implies_intersection_iff (hr : r.Distinct) :
    (∃ s, c.intersection e = some s ∧ s.implies r = true) ↔
      c.implies r = true ∧ e.implies r = true := by
  constructor
  · rintro ⟨s, hs, himplies⟩
    obtain ⟨-, hc, he⟩ := intersection_sound hs
    exact ⟨hc r himplies, he r himplies⟩
  · -- Whatever both imply is large enough to be kept.
    rintro ⟨h, h'⟩
    by_cases hc : c.kind = .hedgehog
    · obtain ⟨centre, arms, rfl⟩ := kind_eq_hedgehog_iff.1 hc
      by_cases he : e.kind = .hedgehog
      · obtain ⟨centre', arms', rfl⟩ := kind_eq_hedgehog_iff.1 he
        match r with
        | .distance d => simp [implies_distance_iff] at h
        | .angle a =>
          rw [hedgehog_implies_angle_iff] at h h'
          -- The two have the same centre, and both arms of the angle are shared.
          have ha : a.a ∈ arms ∩ arms' := NameSet.mem_inter.2 ⟨h.2.1, h'.2.1⟩
          have hb : a.c ∈ arms ∩ arms' := NameSet.mem_inter.2 ⟨h.2.2, h'.2.2⟩
          have h2 := NameSet.two_le_size_iff.2 ⟨_, _, ha, hb, hr.2.2⟩
          exact ⟨_, intersection_hedgehogs.2 ⟨h.1.symm.trans h'.1, h2, rfl⟩,
            hedgehog_implies_angle_iff.2 ⟨h.1, ha, hb⟩⟩
      · rw [hedgehog_intersection he]
        exact exists_intersection_hedgehog he hr h' h
    · by_cases he : e.kind = .hedgehog
      · obtain ⟨centre, arms, rfl⟩ := kind_eq_hedgehog_iff.1 he
        exact exists_intersection_hedgehog hc hr h h'
      · exact exists_intersection_points hc he hr h h'

/-! ### The laws of a meet -/

/-- The intersection of three clusters implies what all of them imply. -/
theorem implies_bind_intersection_iff {o : Option Cluster} (hr : r.Distinct) :
    (∃ s, (o.bind fun t => t.intersection f) = some s ∧ s.implies r = true) ↔
      (∃ t, o = some t ∧ t.implies r = true) ∧ f.implies r = true := by
  cases o with
  | none => simp
  | some t => simpa using implies_intersection_iff hr

theorem Valid.intersection_comm (hc : c.Valid) (he : e.Valid) :
    c.intersection e = e.intersection c := by
  refine eq_of_implies_iff (fun s => hc.solid_intersection he)
    (fun s => he.solid_intersection hc) ?_
  intro r hr
  rw [implies_intersection_iff hr, implies_intersection_iff hr, and_comm]

/-- The intersection of two clusters implies just what both of them imply, as far as different
points go, and it is valid.  It depends neither on the order of the clusters nor on how three of
them are grouped, and a cluster of two points or more is its own intersection. -/
theorem intersection_isMeet (hc : c.Valid) (he : e.Valid) (hf : f.Valid) :
    (∀ r : Relation, r.Distinct →
      (c.implies r = true ∧ e.implies r = true ↔
        ∃ s, c.intersection e = some s ∧ s.implies r = true)) ∧
    (∀ s, c.intersection e = some s → s.Valid) ∧
    c.intersection e = e.intersection c ∧
    ((c.intersection e).bind fun s => s.intersection f) = (e.intersection f).bind c.intersection ∧
    (2 ≤ c.points.size → c.intersection c = some c) := by
  refine ⟨fun r hr => (implies_intersection_iff hr).symm,
    fun s hs => (hc.solid_intersection he hs).valid, hc.intersection_comm he, ?_, fun h2 => ?_⟩
  · -- The regrouped side intersects in the other order, which makes no difference.
    have hturn : (e.intersection f).bind c.intersection =
        (e.intersection f).bind fun s => s.intersection c := by
      cases hs : e.intersection f with
      | none => rfl
      | some s => exact hc.intersection_comm (he.solid_intersection hf hs).valid
    have hsolid : ∀ {a b d : Cluster}, a.Valid → b.Valid → d.Valid → ∀ s,
        ((a.intersection b).bind fun t => t.intersection d) = some s → s.Solid := by
      intro a b d ha hb hd s hs
      obtain ⟨t, ht, hs⟩ := Option.bind_eq_some_iff.1 hs
      exact (ha.solid_intersection hb ht).valid.solid_intersection hd hs
    -- Both groupings imply what all three imply, and solid clusters are determined by that.
    rw [hturn]
    refine eq_of_implies_iff (hsolid hc he hf) (hsolid he hf hc) fun r hr => ?_
    rw [implies_bind_intersection_iff hr, implies_bind_intersection_iff hr,
      implies_intersection_iff hr, implies_intersection_iff hr, and_assoc, and_comm]
  · have hself : c.Solid := ⟨hc, h2⟩
    refine eq_of_implies_iff (fun s => hc.solid_intersection hc) (fun s hs => ?_) fun r hr => ?_
    · rwa [← Option.some_inj.1 hs]
    · rw [implies_intersection_iff hr]
      simp

/-- A rigid, a hedgehog and a balloon that share one angle. -/
theorem intersection_isMeet_angle :
    let c := rigid (.ofList ["a", "b", "c", "o"])
    let e := hedgehog "o" (.ofList ["a", "b", "d"])
    let f := balloon (.ofList ["a", "b", "d", "o"])
    c.Valid ∧ e.Valid ∧ f.Valid ∧ 2 ≤ c.points.size ∧
      c.intersection e = some (hedgehog "o" (.ofList ["a", "b"])) ∧
      (hedgehog "o" (.ofList ["a", "b"])).Valid ∧
      (e.intersection f).bind c.intersection = some (hedgehog "o" (.ofList ["a", "b"])) ∧
      c.intersection c = some c := by
  intro c e f
  have hc : c.Valid := by decide +kernel
  have he : e.Valid := by decide +kernel
  have hf : f.Valid := by decide +kernel
  have h2 : 2 ≤ c.points.size := by decide +kernel
  have hce : c.intersection e = some (hedgehog "o" (.ofList ["a", "b"])) := by decide +kernel
  have hgroup : ((c.intersection e).bind fun s => s.intersection f) =
      some (hedgehog "o" (.ofList ["a", "b"])) := by decide +kernel
  obtain ⟨-, hvalid, -, hassoc, hself⟩ := intersection_isMeet hc he hf
  exact ⟨hc, he, hf, h2, hce, hvalid _ hce, hassoc.symm.trans hgroup, hself h2⟩

end Cluster

end PlanarSketch
