/-
Clusters that overlap.

Two clusters overlap if they have an intersection at all, and then there is a
relation that both imply.  How many points they have to share for it depends
on their kinds: two rigids overlap in a distance, a balloon overlaps with
something else in an angle, and a hedgehog only overlaps in angles at its
centre.

Each rule counts shared points, or arms, in its own way to tell whether its
merge is redundant; or it does not count at all, because its guards say
enough.  All of these counts agree with what the intersection of clusters
says.

* `Overlaps`, `overlaps_of_isRigid`, `overlaps_of_not_isRigid`,
  `overlaps_hedgehogs`, `overlaps_hedgehog`: when two clusters overlap;
* `intersection_sound`, `Overlaps.exists_relation`: then they share a relation;
* `Plan.Tells`: a plan is redundant if and only if two of its inputs overlap;
* `Finding.tells`: so it is for every rule.
-/
import PlanarSketch.Proofs.Overconstraint

namespace PlanarSketch

/-! ### The intersection of two clusters -/

namespace Cluster

variable {c e common : Cluster} {a b : PointName} {arms arms' : NameSet}

/-- The clusters have an intersection. -/
def Overlaps (c e : Cluster) : Prop := ∃ common, c.intersection e = some common

theorem hedgehogOn_eq_some :
    hedgehogOn a arms = some common ↔ 2 ≤ arms.size ∧ common = .hedgehog a arms := by
  unfold hedgehogOn
  split <;> simp [*, eq_comm]

theorem hedgehogWithin_eq_some : hedgehogWithin a arms c = some common ↔
    a ∈ c ∧ 2 ≤ (arms.filter fun v => v ∈ c).size ∧
      common = .hedgehog a (arms.filter fun v => v ∈ c) := by
  unfold hedgehogWithin
  split <;> simp [*, hedgehogOn_eq_some]

theorem balloonOn_eq_some {points : NameSet} :
    balloonOn points = some common ↔ 3 ≤ points.size ∧ common = .balloon points := by
  unfold balloonOn
  split <;> simp [*, eq_comm]

/-- Two rigids have a rigid in common. -/
theorem intersection_of_isRigid (hc : c.isRigid = true) (he : e.isRigid = true) :
    c.intersection e = some common ↔ 2 ≤ (c.shared e).size ∧ common = .rigid (c.shared e) := by
  obtain ⟨p, rfl⟩ := kind_eq_rigid_iff.1 (isRigid_iff.1 hc)
  obtain ⟨q, rfl⟩ := kind_eq_rigid_iff.1 (isRigid_iff.1 he)
  unfold intersection
  dsimp only
  split <;> simp [*, eq_comm]

/-- If one of two clusters is a balloon and neither is a hedgehog, they have a balloon in common. -/
theorem intersection_of_not_isRigid (hc : c.kind ≠ .hedgehog) (he : e.kind ≠ .hedgehog)
    (hr : c.isRigid = false ∨ e.isRigid = false) :
    c.intersection e = some common ↔ 3 ≤ (c.shared e).size ∧ common = .balloon (c.shared e) := by
  rw [← balloonOn_eq_some]
  cases c with
  | hedgehog => exact absurd rfl hc
  | rigid | balloon =>
    cases e with
    | hedgehog => exact absurd rfl he
    | rigid | balloon => simp_all [intersection]

theorem intersection_hedgehogs : (hedgehog a arms).intersection (hedgehog b arms') = some common ↔
    a = b ∧ 2 ≤ (arms ∩ arms').size ∧ common = .hedgehog a (arms ∩ arms') := by
  show (if a = b then hedgehogOn a (arms ∩ arms') else none) = some common ↔ _
  split <;> simp [*, hedgehogOn_eq_some]

/-- A hedgehog has in common with another kind of cluster what that cluster covers. -/
theorem intersection_hedgehog (hc : c.kind ≠ .hedgehog) :
    c.intersection (hedgehog a arms) = some common ↔ a ∈ c ∧
      2 ≤ (arms.filter fun v => v ∈ c).size ∧
        common = .hedgehog a (arms.filter fun v => v ∈ c) := by
  rw [← hedgehogWithin_eq_some]
  cases c with
  | hedgehog => exact absurd rfl hc
  | rigid | balloon => exact Iff.rfl

theorem hedgehog_intersection (hc : c.kind ≠ .hedgehog) :
    (hedgehog a arms).intersection c = c.intersection (hedgehog a arms) := by
  cases c with
  | hedgehog => exact absurd rfl hc
  | rigid | balloon => rfl

/-! ### Overlapping -/

theorem overlaps_of_isRigid (hc : c.isRigid = true) (he : e.isRigid = true) :
    c.Overlaps e ↔ 2 ≤ (c.shared e).size := by
  simp [Overlaps, intersection_of_isRigid hc he]

theorem overlaps_of_not_isRigid (hc : c.kind ≠ .hedgehog) (he : e.kind ≠ .hedgehog)
    (hr : c.isRigid = false ∨ e.isRigid = false) :
    c.Overlaps e ↔ 3 ≤ (c.shared e).size := by
  simp [Overlaps, intersection_of_not_isRigid hc he hr]

theorem overlaps_hedgehogs : (hedgehog a arms).Overlaps (hedgehog b arms') ↔
    a = b ∧ 2 ≤ (arms ∩ arms').size := by
  simp [Overlaps, intersection_hedgehogs]

theorem overlaps_hedgehog (hc : c.kind ≠ .hedgehog) : c.Overlaps (hedgehog a arms) ↔
    a ∈ c ∧ 2 ≤ (arms.filter fun v => v ∈ c).size := by
  simp [Overlaps, intersection_hedgehog hc]

/-- A cluster overlaps with no angle of which a point is missing. -/
theorem not_overlaps_angle (hc : c.kind ≠ .hedgehog) (h : a ∉ c ∨ ∃ v w, v ∉ c ∧
    ∀ u ∈ arms, u = v ∨ u = w) : ¬c.Overlaps (hedgehog a arms) := by
  rw [overlaps_hedgehog hc]
  rintro ⟨ha, h2⟩
  rcases h with h | ⟨v, w, hv, hall⟩
  · exact h ha
  · -- At most the other arm is left.
    have hone : (arms.filter fun u => u ∈ c).size ≤ [w].length := by
      refine NameSet.size_le_of_mem_imp fun u hu => List.mem_singleton.2 ?_
      obtain ⟨hu, huc⟩ := NameSet.mem_filter.1 hu
      rcases hall u hu with rfl | rfl
      · exact absurd (of_decide_eq_true huc) hv
      · rfl
    rw [List.length_singleton] at hone
    omega

/-! ### Shared relations -/

theorem implies_of_mem_anglesAt {r : Relation} (hk : ∀ v ∈ arms, ∀ w ∈ arms,
    c.implies (.angle ⟨v, a, w⟩) = true) (hr : r ∈ anglesAt a arms.toList) :
    c.implies r = true := by
  obtain ⟨p, hp, rfl⟩ := List.mem_map.1 hr
  have hsub := (mem_pairs_iff.1 hp).subset
  have h₁ : p.1 ∈ arms := hsub (by simp)
  have h₂ : p.2 ∈ arms := hsub (by simp)
  unfold Angle.between
  split
  · exact hk _ h₁ _ h₂
  · exact hk _ h₂ _ h₁

theorem implies_of_mem_anglesAmong {points : NameSet} {r : Relation} (hk : c.kind ≠ .hedgehog)
    (hp : ∀ v ∈ points, v ∈ c) (hr : r ∈ anglesAmong points) : c.implies r = true := by
  obtain ⟨vertex, hv, hr⟩ := List.mem_flatMap.1 hr
  have hother : ∀ v ∈ points.erase vertex, v ∈ c := fun v hv => hp v (NameSet.mem_erase.1 hv).1
  exact implies_of_mem_anglesAt (fun v hv' w hw =>
    implies_angle_of_mem hk ⟨hp _ hv, hother v hv', hother w hw⟩) hr

/-- A cluster implies the relations that make it up. -/
theorem implies_of_mem_relations {r : Relation} (hr : r ∈ c.relations) : c.implies r = true := by
  cases c with
  | rigid p =>
    rcases List.mem_append.1 hr with hr | hr
    · obtain ⟨q, hq, rfl⟩ := List.mem_map.1 hr
      have hsub := (mem_pairs_iff.1 hq).subset
      have h₁ : q.1 ∈ p := hsub (by simp)
      have h₂ : q.2 ∈ p := hsub (by simp)
      unfold Distance.between
      split <;> simp [implies, h₁, h₂]
    · exact implies_of_mem_anglesAmong (by simp [kind]) (fun _ hv => hv) hr
  | hedgehog centre arms =>
    refine implies_of_mem_anglesAt (fun v hv w hw => ?_) hr
    simp [implies, hv, hw]
  | balloon p => exact implies_of_mem_anglesAmong (by simp [kind]) (fun _ hv => hv) hr

/-- An intersection determines something, and both clusters determine that. -/
theorem intersection_sound (h : c.intersection e = some common) :
    common.relations ≠ [] ∧ common.Weaker c ∧ common.Weaker e := by
  -- Whichever side the hedgehog is on, the other one covers what is left of it.
  have hspan : ∀ {c : Cluster}, c.kind ≠ .hedgehog → ∀ {a arms common},
      c.intersection (hedgehog a arms) = some common →
        common.relations ≠ [] ∧ common.Weaker c ∧ common.Weaker (hedgehog a arms) := by
    intro c hc a arms common h
    obtain ⟨ha, h2, rfl⟩ := (intersection_hedgehog hc).1 h
    refine ⟨relations_hedgehog_ne_nil h2, weaker_of_points hc (fun h => by cases h) fun v hv => ?_,
      weaker_of_arms fun v hv => (NameSet.mem_filter.1 hv).1⟩
    rcases mem_hedgehog.1 hv with rfl | hv
    · exact ha
    · exact of_decide_eq_true (NameSet.mem_filter.1 hv).2
  by_cases hc : c.kind = .hedgehog
  · obtain ⟨a, arms, rfl⟩ := kind_eq_hedgehog_iff.1 hc
    by_cases he : e.kind = .hedgehog
    · obtain ⟨b, arms', rfl⟩ := kind_eq_hedgehog_iff.1 he
      obtain ⟨rfl, h2, rfl⟩ := intersection_hedgehogs.1 h
      exact ⟨relations_hedgehog_ne_nil h2, weaker_of_arms fun v hv => (NameSet.mem_inter.1 hv).1,
        weaker_of_arms fun v hv => (NameSet.mem_inter.1 hv).2⟩
    · rw [hedgehog_intersection he] at h
      exact (hspan he h).imp_right And.symm
  · by_cases he : e.kind = .hedgehog
    · obtain ⟨b, arms', rfl⟩ := kind_eq_hedgehog_iff.1 he
      exact hspan hc h
    · have hpoints : ∀ v ∈ c.shared e, v ∈ c ∧ v ∈ e := fun v hv => mem_shared.1 hv
      by_cases hr : c.isRigid = true ∧ e.isRigid = true
      · obtain ⟨h2, rfl⟩ := (intersection_of_isRigid hr.1 hr.2).1 h
        exact ⟨relations_rigid_ne_nil h2, weaker_of_points hc (fun _ => hr.1) fun v hv =>
          (hpoints v hv).1, weaker_of_points he (fun _ => hr.2) fun v hv => (hpoints v hv).2⟩
      · rw [not_and_or, Bool.not_eq_true, Bool.not_eq_true] at hr
        obtain ⟨h3, rfl⟩ := (intersection_of_not_isRigid hc he hr).1 h
        exact ⟨relations_balloon_ne_nil h3, weaker_of_points hc (fun h => by cases h) fun v hv =>
          (hpoints v hv).1, weaker_of_points he (fun h => by cases h) fun v hv => (hpoints v hv).2⟩

/-- Clusters that overlap share a relation between different points. -/
theorem Overlaps.exists_relation (h : c.Overlaps e) : ∃ common, c.intersection e = some common ∧
    ∃ r ∈ common.relations, c.implies r = true ∧ e.implies r = true := by
  obtain ⟨common, hcommon⟩ := h
  obtain ⟨hne, hc, he⟩ := intersection_sound hcommon
  obtain ⟨r, hr⟩ := List.exists_mem_of_ne_nil _ hne
  have himplies := implies_of_mem_relations hr
  exact ⟨common, hcommon, r, hr, hc r himplies, he r himplies⟩

end Cluster

/-! ### What the rules tell -/

/-- The plan is redundant if and only if two of the clusters that its inputs offer overlap. -/
def Plan.Tells (plan : Plan) (d : Decomposition) : Prop :=
  ∃ cs, List.Forall₂ d.Offers plan.inputs cs ∧
    (plan.redundant = true ↔ ∃ p ∈ pairs cs, p.1.Overlaps p.2)

namespace Decomposition

variable {d : Decomposition} {plan : Plan}

theorem tells_of_two {i j : PlanInput} {c e : Cluster} (hin : plan.inputs = [i, j])
    (hi : d.Offers i c) (hj : d.Offers j e) (h : plan.redundant = true ↔ c.Overlaps e) :
    plan.Tells d := by
  refine ⟨[c, e], ?_, by simpa using h⟩
  rw [hin]
  exact .cons hi (.cons hj .nil)

theorem tells_of_three {i j k : PlanInput} {c e f : Cluster} (hin : plan.inputs = [i, j, k])
    (hi : d.Offers i c) (hj : d.Offers j e) (hk : d.Offers k f) (hr : plan.redundant = false)
    (h₁ : ¬c.Overlaps e) (h₂ : ¬c.Overlaps f) (h₃ : ¬e.Overlaps f) : plan.Tells d := by
  refine ⟨[c, e, f], ?_, by simp [hr, h₁, h₂, h₃]⟩
  rw [hin]
  exact .cons hi (.cons hj (.cons hk .nil))

/-- Rigids with one point in common do not overlap. -/
theorem not_overlaps_of_only? {c e : Cluster} {b : PointName} (hc : c.isRigid = true)
    (he : e.isRigid = true) (hb : (c.shared e).only? = some b) : ¬c.Overlaps e := by
  rw [Cluster.overlaps_of_isRigid hc he, size_of_only? hb]
  decide

theorem Grounded.absorb_tells (hg : d.Grounded) {cover hog : Placed} (hc : d.OnTop cover)
    (hh : d.OnTop hog) (h : d.absorb? cover hog = some plan) : plan.Tells d := by
  obtain ⟨hk, hck, hsub, -, rfl⟩ := absorb?_eq_some h
  obtain ⟨g, rfl⟩ := OnTop.exists_hedgehog hk
  refine tells_of_two rfl (.existing hc) (.existing hh) (iff_of_true rfl ?_)
  obtain ⟨-, h2⟩ := Cluster.valid_hedgehog_iff.1 (hg.valid _ _ hh.2)
  refine (Cluster.overlaps_hedgehog hck).2 ⟨hsub _ (Cluster.mem_hedgehog.2 (.inl rfl)), ?_⟩
  refine Nat.le_trans h2 (NameSet.size_le_of_subset fun v hv => ?_)
  exact NameSet.mem_filter.2 ⟨hv, decide_eq_true (hsub v (Cluster.mem_hedgehog.2 (.inr hv)))⟩

theorem balloonRigid_tells {balloon rigid : Placed} (hb : d.OnTop balloon) (hr : d.OnTop rigid)
    (h : balloonRigid? balloon rigid = some plan) : plan.Tells d := by
  obtain ⟨hbk, hrr, -, rfl⟩ := balloonRigid?_eq_some h
  refine tells_of_two rfl (.existing hb) (.existing hr) ?_
  rw [Cluster.overlaps_of_not_isRigid (by simp [hbk]) (kind_ne_of_isRigid hrr)
    (.inl (by simp [Cluster.isRigid, hbk]))]
  exact decide_eq_true_iff

theorem balloons_tells {me other : Placed} (hm : d.OnTop me) (ho : d.OnTop other)
    (hb : me.cluster.kind = .balloon) (h : balloons? me other = some plan) : plan.Tells d := by
  obtain ⟨hob, -, rfl⟩ := balloons?_eq_some h
  refine tells_of_two rfl (.existing hm) (.existing ho) ?_
  rw [Cluster.overlaps_of_not_isRigid (by simp [hb]) (by simp [hob])
    (.inl (by simp [Cluster.isRigid, hb]))]
  exact decide_eq_true_iff

theorem rigidRigid_tells {me other : Placed} (hm : d.OnTop me) (ho : d.OnTop other)
    (hr : me.cluster.isRigid = true) (h : d.rigidRigid? me other = some plan) : plan.Tells d := by
  obtain ⟨hor, h2, rfl⟩ := rigidRigid?_eq_some h
  exact tells_of_two rfl (.existing hm) (.existing ho)
    (iff_of_true rfl ((Cluster.overlaps_of_isRigid hr hor).2 h2))

/-- A lone point shares no more than itself. -/
theorem joinPoint_tells {rigid point : Placed} (hr : d.OnTop rigid) (hp : d.OnTop point)
    (hrr : rigid.cluster.isRigid = true) (hpr : point.cluster.isRigid = true)
    (hone : point.cluster.size = 1) : (d.joinPoint rigid point).Tells d := by
  refine tells_of_two rfl (.existing hr) (.existing hp) (iff_of_false (by simp [joinPoint]) ?_)
  rw [Cluster.overlaps_of_isRigid hrr hpr]
  rw [Cluster.size_of_isRigid hpr] at hone
  have hle := (size_shared_le rigid.cluster point.cluster).2
  omega

/-- Two hedgehogs at one centre overlap in the arms that both have. -/
theorem joinHedgehogs_tells {centre : PointName} {i j : PlanInput} {arms arms' : NameSet}
    (hi : d.Offers i (.hedgehog centre arms)) (hj : d.Offers j (.hedgehog centre arms')) :
    (joinHedgehogs centre i j arms arms').Tells d := by
  refine tells_of_two rfl hi hj ?_
  rw [Cluster.overlaps_hedgehogs, and_iff_right rfl]
  exact decide_eq_true_iff

theorem threeRigids_tells {me first second : Placed} (hm : d.OnTop me) (h₁ : d.OnTop first)
    (h₂ : d.OnTop second) (hr : me.cluster.isRigid = true)
    (h : d.threeRigids? me first second = some plan) : plan.Tells d := by
  obtain ⟨hr₁, hr₂, -, p, q, r, hp, hq, hrp, -, -, -, rfl⟩ := threeRigids?_eq_some h
  rw [shared_comm] at hrp
  exact tells_of_three rfl (.existing hm) (.existing h₁) (.existing h₂) rfl
    (not_overlaps_of_only? hr hr₁ hp) (not_overlaps_of_only? hr hr₂ hrp)
    (not_overlaps_of_only? hr₁ hr₂ hq)

/-- Two rigids joined by an angle do not overlap in that angle, since each of them lacks one of its
three points. -/
theorem Grounded.joinByAngle_tells (hg : d.Grounded) {r n : Placed} {h : PlacedHedgehog}
    {v w b : PointName} {rule : MergeRule} {data : TriangleData} {qs : List SelectionConstraint}
    (hr : d.OnTop r) (hn : d.OnTop n) (hh : d.OnTop h.placed) (hrr : r.cluster.isRigid = true)
    (hnr : n.cluster.isRigid = true) (hb : (r.cluster.shared n.cluster).only? = some b)
    (hv : v ∈ h.arms) (hw : w ∈ h.arms) (hvw : v ≠ w)
    (hlack : ∀ c, c = r.cluster ∨ c = n.cluster → h.centre ∉ c ∨ v ∉ c ∨ w ∉ c) :
    (d.joinByAngle rule r n (withArms h (.ofList [v, w])) data qs).Tells d := by
  have hno : ∀ c : Cluster, c.isRigid = true → h.centre ∉ c ∨ v ∉ c ∨ w ∉ c →
      ¬c.Overlaps (.hedgehog h.centre (.ofList [v, w])) := by
    intro c hc hl
    refine Cluster.not_overlaps_angle (kind_ne_of_isRigid hc) (hl.imp_right fun hl => ?_)
    rcases hl with hl | hl
    · exact ⟨v, w, hl, fun u hu => by simpa using hu⟩
    · exact ⟨w, v, hl, fun u hu => by simpa [or_comm] using hu⟩
  exact tells_of_three rfl (.existing hr) (.existing hn) (hg.offers_withArms_pair hh hv hw hvw) rfl
    (not_overlaps_of_only? hrr hnr hb) (hno _ hrr (hlack _ (.inl rfl)))
    (hno _ hnr (hlack _ (.inr rfl)))

theorem Grounded.triangle_tells (hg : d.Grounded) {me other : PlacedHedgehog} {c : PointName}
    (hm : d.OnTop me.placed) (ho : d.OnTop other.placed) (hb : other.centre ∈ me.arms)
    (ha : me.centre ∈ other.arms) (hc : c ∈ me.arms ∩ other.arms)
    (h : d.triangleOver? me other c = some plan) : plan.Tells d := by
  obtain ⟨-, rfl⟩ := triangleOver?_eq_some h
  obtain ⟨hcm, hco⟩ := NameSet.mem_inter.1 hc
  have hmc := (Cluster.valid_hedgehog_iff.1 (hg.valid _ _ hm.2)).1
  have hoc := (Cluster.valid_hedgehog_iff.1 (hg.valid _ _ ho.2)).1
  have hov : other.centre ≠ c := fun e => hoc (e ▸ hco)
  have hmv : me.centre ≠ c := fun e => hmc (e ▸ hcm)
  refine tells_of_two rfl (hg.offers_withArms_pair hm hb hcm hov)
    (hg.offers_withArms_pair ho ha hco hmv) (iff_of_false (by simp) ?_)
  rw [Cluster.overlaps_hedgehogs]
  exact fun ⟨he, _⟩ => hmc (he ▸ hb)

/-- Every rule tells rightly whether its merge is redundant. -/
theorem Finding.tells {ps : List ClusterId} (hg : d.Grounded) (h : Finding d ps plan) :
    plan.Tells d := by
  cases h with
  | absorb hc hh h => exact hg.absorb_tells hc hh h
  | balloonRigid hb hr h => exact balloonRigid_tells hb hr h
  | pointRigid hm ho _ hr _ h =>
    obtain ⟨hor, ⟨hone, rfl⟩ | ⟨-, hone, rfl⟩⟩ := pointRigid?_eq_some h
    · exact joinPoint_tells ho hm hor hr hone
    · exact joinPoint_tells hm ho hr hor hone
  | rigidRigid hm ho _ hr h => exact rigidRigid_tells hm ho hr h
  | balloons hm ho _ hb h => exact balloons_tells hm ho hb h
  | @hedgehogs me other _ hm ho _ h =>
    obtain ⟨arms, -, hc, -, -, rfl⟩ := hedgehogs?_eq_some h
    have hj : d.Offers (.existing other.id) (.hedgehog me.centre arms) := hc ▸ .existing ho
    exact joinHedgehogs_tells (.existing hm) hj
  | threeRigids hm h₁ h₂ _ _ hr h => exact threeRigids_tells hm h₁ h₂ hr h
  | angleBetween hr hn hh _ hrr hnr hb _ ha hc =>
    obtain ⟨ha, har, han⟩ := armTo?_eq_some ha
    obtain ⟨hc, hcn, hcr⟩ := armTo?_eq_some hc
    refine hg.joinByAngle_tells hr hn hh hrr hnr hb ha hc (fun e => han (e ▸ hcn)) ?_
    rintro c (rfl | rfl)
    · exact .inr (.inr hcr)
    · exact .inr (.inl han)
  | angleBeside hr hn hh _ hrr hnr hb hsides hcentre hcb hba hc =>
    obtain ⟨harm, -, hcn⟩ := armTo?_eq_some hc
    obtain ⟨⟨hbr, hbn⟩, honly⟩ := only?_shared hb
    -- The centre is not the shared point, so only one of the rigids has it.
    rcases hsides with ⟨rfl, rfl, -, -⟩ | ⟨rfl, rfl, -, -⟩
    · refine hg.joinByAngle_tells hr hn hh hrr hnr hb hba harm (fun e => hcn (e ▸ hbr)) ?_
      rintro c (rfl | rfl)
      · exact .inr (.inr hcn)
      · exact .inl fun hfar => hcb (honly _ hcentre hfar)
    · refine hg.joinByAngle_tells hr hn hh hrr hnr hb hba harm (fun e => hcn (e ▸ hbn)) ?_
      rintro c (rfl | rfl)
      · exact .inl fun hfar => hcb (honly _ hfar hcentre)
      · exact .inr (.inr hcn)
  | extend hs hh hk hc h =>
    obtain ⟨h2, -, -, -, rfl⟩ := extendHedgehog?_eq_some h
    exact joinHedgehogs_tells (.existing hh) (offers_at_centre hs hk hc h2)
  | triangle hm ho hb ha hc h => exact hg.triangle_tells hm ho hb ha hc h

end Decomposition

end PlanarSketch
