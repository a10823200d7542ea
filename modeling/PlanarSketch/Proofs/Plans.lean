/-
What a plan promises.

Whatever a rule finds, the output of the plan is valid, determines what its
inputs determine and has just their points; and the plan makes progress: it
consumes two clusters for one, or it lets a hedgehog grow, or it covers a
triangle that was not covered.

* `Offers`: the cluster that an input of a plan stands for;
* `Plan.Progresses`, `Plan.Sound`: the promises;
* `Finding.sound`: the rules keep them, rule by rule.
-/
import PlanarSketch.Proofs.Rules

namespace PlanarSketch

/-- What an input of a plan stands for: a top-level cluster, or a valid hedgehog that knows no more
than the top-level cluster from which it is to be derived. -/
inductive Decomposition.Offers (d : Decomposition) : PlanInput → Cluster → Prop
  | existing {p : Placed} (hp : d.OnTop p) : Offers d (.existing p.id) p.cluster
  | derived {source : Placed} {centre : PointName} {arms : NameSet} (hs : d.OnTop source)
      (hv : (Cluster.hedgehog centre arms).Valid)
      (hw : (Cluster.hedgehog centre arms).Weaker source.cluster) :
      Offers d (.derived source.id centre arms) (.hedgehog centre arms)

/-- The plan consumes two top-level clusters, lets one of the hedgehogs there grow, or covers a
triangle. -/
def Plan.Progresses (plan : Plan) (d : Decomposition) : Prop :=
  (∃ i j, .existing i ∈ plan.inputs ∧ .existing j ∈ plan.inputs ∧ i ≠ j) ∨
    (∃ (hog : PlacedHedgehog) (arms : NameSet) (a : PointName), d.OnTop hog.placed ∧
      .existing hog.id ∈ plan.inputs ∧ plan.output = .hedgehog hog.centre arms ∧
      a ∈ arms ∧ a ∉ hog.arms) ∨
    ∃ a b c, plan.output = .balloon (.ofList [a, b, c]) ∧ d.covered (.ofList [a, b, c]) = false

/-- The output of the plan is valid and knows all that the inputs know, about their points alone. -/
structure Plan.Sound (plan : Plan) (d : Decomposition) : Prop where
  rule : plan.rule.isDerivation = false
  valid : plan.output.Valid
  weaker : ∀ i ∈ plan.inputs, ∃ c, d.Offers i c ∧ c.Weaker plan.output
  members : ∀ v ∈ plan.output, ∃ i ∈ plan.inputs, ∃ c, d.Offers i c ∧ v ∈ c
  progresses : plan.Progresses d

namespace Decomposition

variable {d : Decomposition} {plan : Plan}

/-! ### Inputs -/

/-- A hedgehog with some of its arms, whether it has to be derived or not. -/
theorem offers_withArms {h : PlacedHedgehog} {arms : NameSet} (hh : d.OnTop h.placed)
    (hv : (Cluster.hedgehog h.centre h.arms).Valid) (hs : arms ⊆ h.arms) (h2 : 2 ≤ arms.size) :
    d.Offers (withArms h arms) (.hedgehog h.centre arms) := by
  unfold withArms
  split
  · rename_i he
    subst he
    exact .existing hh
  · have hc : h.centre ∉ arms := fun hc => (Cluster.valid_hedgehog_iff.1 hv).1 (hs _ hc)
    have ho : d.Offers (.derived h.placed.id h.centre arms) (.hedgehog h.centre arms) :=
      .derived hh (Cluster.valid_hedgehog_iff.2 ⟨hc, h2⟩) (Cluster.weaker_of_arms hs)
    exact ho

theorem Grounded.offers_withArms_pair (hg : d.Grounded) {h : PlacedHedgehog} {a b : PointName}
    (hh : d.OnTop h.placed) (ha : a ∈ h.arms) (hb : b ∈ h.arms) (hab : a ≠ b) :
    d.Offers (withArms h (.ofList [a, b])) (.hedgehog h.centre (.ofList [a, b])) := by
  refine offers_withArms hh (hg.valid _ _ hh.2) ?_ ?_
  · intro v hv
    simp only [NameSet.mem_ofList, List.mem_cons, List.not_mem_nil, or_false] at hv
    rcases hv with rfl | rfl
    · exact ha
    · exact hb
  · exact NameSet.two_le_size_iff.2 ⟨a, b, by simp, by simp, hab⟩

/-- A valid cluster offers what it knows at one of its points. -/
theorem offers_at_centre {source : Placed} {centre : PointName} (hs : d.OnTop source)
    (hk : source.cluster.kind ≠ .hedgehog) (hc : centre ∈ source.cluster)
    (h2 : 2 ≤ (source.cluster.points.erase centre).size) :
    d.Offers (.derived source.id centre (source.cluster.points.erase centre))
      (.hedgehog centre (source.cluster.points.erase centre)) := by
  refine .derived hs (Cluster.valid_hedgehog_iff.2 ⟨by simp, h2⟩) ?_
  refine Cluster.weaker_of_points hk (fun h => by cases h) fun v hv => ?_
  rcases Cluster.mem_hedgehog.1 hv with rfl | hv
  · exact hc
  · exact (NameSet.mem_erase.1 hv).1

/-! ### Plans that consume two clusters -/

/-- A merge of two top-level clusters is sound if its output knows both and has their points. -/
theorem sound_of_two {p q : Placed} (hp : d.OnTop p) (hq : d.OnTop q) (hne : p.id ≠ q.id)
    (hrule : plan.rule.isDerivation = false)
    (hin : plan.inputs = [.existing p.id, .existing q.id]) (hv : plan.output.Valid)
    (hwp : p.cluster.Weaker plan.output) (hwq : q.cluster.Weaker plan.output)
    (hmem : ∀ v ∈ plan.output, v ∈ p.cluster ∨ v ∈ q.cluster) : plan.Sound d := by
  refine ⟨hrule, hv, ?_, ?_, .inl ⟨p.id, q.id, by simp [hin], by simp [hin], hne⟩⟩
  · intro i hi
    rw [hin] at hi
    simp only [List.mem_cons, List.not_mem_nil, or_false] at hi
    rcases hi with rfl | rfl
    · exact ⟨_, .existing hp, hwp⟩
    · exact ⟨_, .existing hq, hwq⟩
  · intro v hv
    rcases hmem v hv with hv | hv
    · exact ⟨_, by simp [hin], _, .existing hp, hv⟩
    · exact ⟨_, by simp [hin], _, .existing hq, hv⟩

/-- So is a merge with a third input. -/
theorem sound_of_three {p q : Placed} {i : PlanInput} {c : Cluster} (hp : d.OnTop p)
    (hq : d.OnTop q) (hi : d.Offers i c) (hne : p.id ≠ q.id)
    (hrule : plan.rule.isDerivation = false)
    (hin : plan.inputs = [.existing p.id, .existing q.id, i]) (hv : plan.output.Valid)
    (hwp : p.cluster.Weaker plan.output) (hwq : q.cluster.Weaker plan.output)
    (hwc : c.Weaker plan.output)
    (hmem : ∀ v ∈ plan.output, v ∈ p.cluster ∨ v ∈ q.cluster ∨ v ∈ c) : plan.Sound d := by
  refine ⟨hrule, hv, ?_, ?_, .inl ⟨p.id, q.id, by simp [hin], by simp [hin], hne⟩⟩
  · intro j hj
    rw [hin] at hj
    simp only [List.mem_cons, List.not_mem_nil, or_false] at hj
    rcases hj with rfl | rfl | rfl
    · exact ⟨_, .existing hp, hwp⟩
    · exact ⟨_, .existing hq, hwq⟩
    · exact ⟨_, hi, hwc⟩
  · intro v hv
    rcases hmem v hv with hv | hv | hv
    · exact ⟨_, by simp [hin], _, .existing hp, hv⟩
    · exact ⟨_, by simp [hin], _, .existing hq, hv⟩
    · exact ⟨_, by simp [hin], _, hi, hv⟩

theorem Grounded.absorb_sound (hg : d.Grounded) {cover hog : Placed} (hc : d.OnTop cover)
    (hh : d.OnTop hog) (h : d.absorb? cover hog = some plan) : plan.Sound d := by
  obtain ⟨hk, hck, hsub, -, rfl⟩ := absorb?_eq_some h
  have hne : cover.id ≠ hog.id := hc.id_ne_of_kind hh (by rwa [hk])
  have hr : hog.cluster.isRigid = true → cover.cluster.isRigid = true := by
    intro hr
    rw [Cluster.isRigid_iff, hk] at hr
    cases hr
  refine sound_of_two hc hh hne ?_ rfl (hg.valid _ _ hc.2) (.refl _)
    (Cluster.weaker_of_points hck hr hsub) fun v hv => .inl hv
  show (if cover.cluster.isRigid then MergeRule.rigidAbsorbs else .balloonAbsorbs).isDerivation = _
  split <;> rfl

/-- The points of two clusters together are those of a rigid, or of a balloon if neither cluster
is rigid. -/
theorem sound_of_union {p q : Placed} (hp : d.OnTop p) (hq : d.OnTop q) (hne : p.id ≠ q.id)
    (hrule : plan.rule.isDerivation = false)
    (hin : plan.inputs = [.existing p.id, .existing q.id]) (hv : plan.output.Valid)
    (hk : plan.output.kind ≠ .hedgehog)
    (hpts : plan.output.points = p.cluster.points ∪ q.cluster.points)
    (hr : p.cluster.isRigid = true ∨ q.cluster.isRigid = true → plan.output.isRigid = true) :
    plan.Sound d := by
  have hmem : ∀ v, v ∈ plan.output ↔ v ∈ p.cluster ∨ v ∈ q.cluster := by
    intro v
    rw [← Cluster.mem_points, hpts, NameSet.mem_union, Cluster.mem_points, Cluster.mem_points]
  refine sound_of_two hp hq hne hrule hin hv ?_ ?_ fun v hv => (hmem v).1 hv
  · exact Cluster.weaker_of_points hk (fun h => hr (.inl h)) fun v hv => (hmem v).2 (.inl hv)
  · exact Cluster.weaker_of_points hk (fun h => hr (.inr h)) fun v hv => (hmem v).2 (.inr hv)

theorem valid_rigid_union {c : Cluster} {s : NameSet} (h : c.Valid) :
    (Cluster.rigid (c.points ∪ s)).Valid := by
  obtain ⟨v, hv⟩ := h.exists_mem
  exact Cluster.valid_rigid_iff.2 ⟨v, NameSet.mem_union.2 (.inl hv)⟩

theorem Grounded.balloonRigid_sound (hg : d.Grounded) {balloon rigid : Placed}
    (hb : d.OnTop balloon) (hr : d.OnTop rigid) (h : balloonRigid? balloon rigid = some plan) :
    plan.Sound d := by
  obtain ⟨hbk, hrr, -, rfl⟩ := balloonRigid?_eq_some h
  have hne : balloon.id ≠ rigid.id := by
    refine hb.id_ne_of_kind hr ?_
    rw [hbk, Cluster.isRigid_iff.1 hrr]
    decide
  exact sound_of_union hb hr hne rfl rfl (valid_rigid_union (hg.valid _ _ hb.2))
    (by simp [Cluster.kind]) rfl fun _ => rfl

theorem Grounded.rigidRigid_sound (hg : d.Grounded) {me other : Placed} (hm : d.OnTop me)
    (ho : d.OnTop other) (hne : other.id ≠ me.id) (h : d.rigidRigid? me other = some plan) :
    plan.Sound d := by
  obtain ⟨-, -, rfl⟩ := rigidRigid?_eq_some h
  exact sound_of_union hm ho hne.symm rfl rfl (valid_rigid_union (hg.valid _ _ hm.2))
    (by simp [Cluster.kind]) rfl fun _ => rfl

theorem Grounded.balloons_sound (hg : d.Grounded) {me other : Placed} (hm : d.OnTop me)
    (ho : d.OnTop other) (hne : other.id ≠ me.id) (hb : me.cluster.kind = .balloon)
    (h : balloons? me other = some plan) : plan.Sound d := by
  obtain ⟨hob, -, rfl⟩ := balloons?_eq_some h
  obtain ⟨p, hp⟩ := Cluster.kind_eq_balloon_iff.1 hb
  have hv : 3 ≤ me.cluster.points.size := by
    have hvalid := hg.valid _ _ hm.2
    rw [hp] at hvalid ⊢
    exact Cluster.valid_balloon_iff.1 hvalid
  refine sound_of_union hm ho hne.symm rfl rfl ?_ (by simp [Cluster.kind]) rfl fun hr => ?_
  · refine Cluster.valid_balloon_iff.2 (Nat.le_trans hv (NameSet.size_le_of_subset ?_))
    intro v hv
    exact NameSet.mem_union.2 (.inl hv)
  · rw [Cluster.isRigid_iff, Cluster.isRigid_iff, hb, hob] at hr
    simp at hr

/-- A lone point has no point but the one that it shares. -/
theorem weaker_of_lone_point {c e : Cluster} (hc : c.isRigid = true) (he : e.isRigid = true)
    (hone : c.size = 1) (hv : ∃ v, v ∈ c ∧ v ∈ e) : c.Weaker e := by
  obtain ⟨v, hvc, hve⟩ := hv
  have hk : e.kind ≠ .hedgehog := by
    rw [Cluster.isRigid_iff.1 he]
    simp
  refine Cluster.weaker_of_points hk (fun _ => he) fun w hw => ?_
  -- A second point would make the cluster larger than a lone point.
  have hwv : w = v := by
    refine Decidable.byContradiction fun hne => ?_
    have h2 : 2 ≤ c.points.size := NameSet.two_le_size_iff.2 ⟨w, v, hw, hvc, hne⟩
    rw [← Cluster.size_of_isRigid hc] at h2
    omega
  rw [hwv]
  exact hve

theorem Grounded.joinPoint_sound (hg : d.Grounded) {rigid point : Placed} (hr : d.OnTop rigid)
    (hp : d.OnTop point) (hne : rigid.id ≠ point.id) (hrr : rigid.cluster.isRigid = true)
    (hpr : point.cluster.isRigid = true) (hone : point.cluster.size = 1)
    (hv : ∃ v, v ∈ point.cluster ∧ v ∈ rigid.cluster) : (d.joinPoint rigid point).Sound d :=
  sound_of_two hr hp hne rfl rfl (hg.valid _ _ hr.2) (.refl _)
    (weaker_of_lone_point hpr hrr hone hv) fun _ hv => .inl hv

theorem Grounded.pointRigid_sound (hg : d.Grounded) {me other : Placed} (hm : d.OnTop me)
    (ho : d.OnTop other) (hne : other.id ≠ me.id) (hr : me.cluster.isRigid = true)
    (hv : ∃ v, v ∈ me.cluster ∧ v ∈ other.cluster) (h : d.pointRigid? me other = some plan) :
    plan.Sound d := by
  obtain ⟨hor, ⟨hone, rfl⟩ | ⟨-, hone, rfl⟩⟩ := pointRigid?_eq_some h
  · exact hg.joinPoint_sound ho hm hne hor hr hone hv
  · obtain ⟨v, h₁, h₂⟩ := hv
    exact hg.joinPoint_sound hm ho hne.symm hr hor hone ⟨v, h₂, h₁⟩

/-! ### Plans with hedgehogs -/

/-- The arms of two hedgehogs at one centre make a hedgehog that knows both. -/
theorem valid_hedgehog_union {centre : PointName} {arms arms' : NameSet}
    (h : (Cluster.hedgehog centre arms).Valid) (hc : centre ∉ arms') :
    (Cluster.hedgehog centre (arms ∪ arms')).Valid := by
  obtain ⟨hn, h2⟩ := Cluster.valid_hedgehog_iff.1 h
  refine Cluster.valid_hedgehog_iff.2 ⟨fun hm => ?_, ?_⟩
  · rcases NameSet.mem_union.1 hm with hm | hm
    · exact hn hm
    · exact hc hm
  · exact Nat.le_trans h2 (NameSet.size_le_of_subset fun v hv => NameSet.mem_union.2 (.inl hv))

/-- A join of two hedgehogs is sound once it makes progress. -/
theorem joinHedgehogs_sound {centre : PointName} {i j : PlanInput} {arms arms' : NameSet}
    (hv : (Cluster.hedgehog centre arms).Valid) (hc : centre ∉ arms')
    (hi : d.Offers i (.hedgehog centre arms)) (hj : d.Offers j (.hedgehog centre arms'))
    (hp : (joinHedgehogs centre i j arms arms').Progresses d) :
    (joinHedgehogs centre i j arms arms').Sound d := by
  have hleft : arms ⊆ arms ∪ arms' := fun v hv => NameSet.mem_union.2 (.inl hv)
  have hright : arms' ⊆ arms ∪ arms' := fun v hv => NameSet.mem_union.2 (.inr hv)
  refine ⟨rfl, valid_hedgehog_union hv hc, ?_, ?_, hp⟩
  · intro k hk
    simp only [joinHedgehogs, List.mem_cons, List.not_mem_nil, or_false] at hk
    rcases hk with rfl | rfl
    · exact ⟨_, hi, Cluster.weaker_of_arms hleft⟩
    · exact ⟨_, hj, Cluster.weaker_of_arms hright⟩
  · intro v hv
    have hin : i ∈ [i, j] ∧ j ∈ [i, j] := by simp
    rcases Cluster.mem_hedgehog.1 hv with rfl | hv
    · exact ⟨i, hin.1, _, hi, Cluster.mem_hedgehog.2 (.inl rfl)⟩
    · rcases NameSet.mem_union.1 hv with hv | hv
      · exact ⟨i, hin.1, _, hi, Cluster.mem_hedgehog.2 (.inr hv)⟩
      · exact ⟨j, hin.2, _, hj, Cluster.mem_hedgehog.2 (.inr hv)⟩

theorem Grounded.hedgehogs_sound (hg : d.Grounded) {me : PlacedHedgehog} {other : Placed}
    (hm : d.OnTop me.placed) (ho : d.OnTop other) (hne : other.id ≠ me.id)
    (h : hedgehogs? me other = some plan) : plan.Sound d := by
  obtain ⟨arms, -, hc, -, -, rfl⟩ := hedgehogs?_eq_some h
  have hv := hg.valid _ _ ho.2
  rw [hc] at hv
  have hj : d.Offers (.existing other.id) (.hedgehog me.centre arms) := by
    rw [← hc]
    exact .existing ho
  refine joinHedgehogs_sound (hg.valid _ _ hm.2) (Cluster.valid_hedgehog_iff.1 hv).1
    (.existing hm) hj (.inl ⟨me.id, other.id, ?_, ?_, hne.symm⟩)
  · simp [joinHedgehogs]
  · simp [joinHedgehogs]

theorem Grounded.extend_sound (hg : d.Grounded) {source : Placed} {hog : PlacedHedgehog}
    (hs : d.OnTop source) (hh : d.OnTop hog.placed) (hk : source.cluster.kind ≠ .hedgehog)
    (hc : hog.centre ∈ source.cluster) (h : d.extendHedgehog? source hog = some plan) :
    plan.Sound d := by
  obtain ⟨h2, -, ⟨a, ha, hnew⟩, -, rfl⟩ := extendHedgehog?_eq_some h
  -- The source stays on the top level, so progress is the new arm alone.
  refine joinHedgehogs_sound (hg.valid _ _ hh.2) (by simp) (.existing hh)
    (offers_at_centre hs hk hc h2) (.inr (.inl ⟨hog, _, a, hh, ?_, rfl, ?_, hnew⟩))
  · simp [joinHedgehogs]
  · exact NameSet.mem_union.2 (.inr ha)

/-- Two hedgehogs that see each other's centre and a common point see a triangle. -/
theorem Grounded.triangle_sound (hg : d.Grounded) {me other : PlacedHedgehog} {c : PointName}
    (hm : d.OnTop me.placed) (ho : d.OnTop other.placed) (hb : other.centre ∈ me.arms)
    (ha : me.centre ∈ other.arms) (hc : c ∈ me.arms ∩ other.arms)
    (h : d.triangleOver? me other c = some plan) : plan.Sound d := by
  obtain ⟨hcov, rfl⟩ := triangleOver?_eq_some h
  obtain ⟨hcm, hco⟩ := NameSet.mem_inter.1 hc
  -- No hedgehog has its centre among its arms, so the three points differ.
  have hmc := (Cluster.valid_hedgehog_iff.1 (hg.valid _ _ hm.2)).1
  have hoc := (Cluster.valid_hedgehog_iff.1 (hg.valid _ _ ho.2)).1
  have hmo : me.centre ≠ other.centre := fun e => hmc (e ▸ hb)
  have hmv : me.centre ≠ c := fun e => hmc (e ▸ hcm)
  have hov : other.centre ≠ c := fun e => hoc (e ▸ hco)
  have hme := hg.offers_withArms_pair hm hb hcm hov
  have hother := hg.offers_withArms_pair ho ha hco hmv
  refine ⟨rfl, ?_, ?_, ?_, .inr (.inr ⟨_, _, _, rfl, hcov⟩)⟩
  · exact Cluster.valid_balloon_iff.2
      (NameSet.three_le_size (by simp) (by simp) (by simp) hmo hmv hov)
  · intro i hi
    simp only [List.mem_cons, List.not_mem_nil, or_false] at hi
    rcases hi with rfl | rfl
    · refine ⟨_, hme, Cluster.weaker_of_points (by simp [Cluster.kind]) (fun e => by cases e) ?_⟩
      intro v hv
      simpa [or_comm, or_left_comm] using hv
    · refine ⟨_, hother, Cluster.weaker_of_points (by simp [Cluster.kind]) (fun e => by cases e) ?_⟩
      intro v hv
      simpa [or_comm, or_left_comm] using hv
  · -- The first hedgehog has all three points.
    intro v hv
    refine ⟨_, List.mem_cons_self, _, hme, ?_⟩
    simpa using hv

/-! ### Plans that construct a triangle between rigids -/

theorem Grounded.threeRigids_sound (hg : d.Grounded) {me first second : Placed} (hm : d.OnTop me)
    (h₁ : d.OnTop first) (h₂ : d.OnTop second) (hne : first.id ≠ me.id)
    (h : d.threeRigids? me first second = some plan) : plan.Sound d := by
  obtain ⟨-, -, -, p, q, r, -, -, -, -, -, -, rfl⟩ := threeRigids?_eq_some h
  have hmem : ∀ v, v ∈ Cluster.rigid (me.cluster.points ∪ first.cluster.points ∪
      second.cluster.points) ↔ v ∈ me.cluster ∨ v ∈ first.cluster ∨ v ∈ second.cluster := by
    intro v
    simp [or_assoc]
  have hw : ∀ c : Cluster, (∀ v ∈ c, v ∈ me.cluster ∨ v ∈ first.cluster ∨ v ∈ second.cluster) →
      c.Weaker (.rigid (me.cluster.points ∪ first.cluster.points ∪ second.cluster.points)) :=
    fun c hc => Cluster.weaker_of_points (by simp [Cluster.kind]) (fun _ => rfl) fun v hv =>
      (hmem v).2 (hc v hv)
  obtain ⟨v, hv⟩ := (hg.valid _ _ hm.2).exists_mem
  exact sound_of_three hm h₁ (.existing h₂) hne.symm rfl rfl
    (Cluster.valid_rigid_iff.2 ⟨v, (hmem v).2 (.inl hv)⟩) (hw _ fun v hv => .inl hv)
    (hw _ fun v hv => .inr (.inl hv)) (hw _ fun v hv => .inr (.inr hv)) fun v hv => (hmem v).1 hv

/-- Two rigids joined by the angle that a hedgehog gives make a rigid on their points, and all
three points of the angle lie in them. -/
theorem Grounded.joinByAngle_sound (hg : d.Grounded) {r n : Placed} {h : PlacedHedgehog}
    {a b : PointName} {rule : MergeRule} {data : TriangleData} {qs : List SelectionConstraint}
    (hr : d.OnTop r) (hn : d.OnTop n) (hh : d.OnTop h.placed) (hne : n.id ≠ r.id)
    (hrule : rule.isDerivation = false) (ha : a ∈ h.arms) (hb : b ∈ h.arms) (hab : a ≠ b)
    (hin : ∀ v, v = h.centre ∨ v = a ∨ v = b → v ∈ r.cluster ∨ v ∈ n.cluster) :
    (d.joinByAngle rule r n (withArms h (.ofList [a, b])) data qs).Sound d := by
  have hmem : ∀ v, v ∈ Cluster.rigid (r.cluster.points ∪ n.cluster.points) ↔
      v ∈ r.cluster ∨ v ∈ n.cluster := by
    intro v
    simp
  have hw : ∀ c : Cluster, (∀ v ∈ c, v ∈ r.cluster ∨ v ∈ n.cluster) →
      c.Weaker (.rigid (r.cluster.points ∪ n.cluster.points)) :=
    fun c hc => Cluster.weaker_of_points (by simp [Cluster.kind]) (fun _ => rfl) fun v hv =>
      (hmem v).2 (hc v hv)
  refine sound_of_three hr hn (hg.offers_withArms_pair hh ha hb hab) hne.symm hrule rfl
    (valid_rigid_union (hg.valid _ _ hr.2)) (hw _ fun v hv => .inl hv) (hw _ fun v hv => .inr hv)
    (hw _ fun v hv => hin v ?_) fun v hv => ?_
  · simpa using hv
  · exact ((hmem v).1 hv).imp_right .inl

/-! ### All rules -/

/-- Whatever a rule finds keeps the promises of a plan. -/
theorem Finding.sound {ps : List ClusterId} (hg : d.Grounded) (h : Finding d ps plan) :
    plan.Sound d := by
  cases h with
  | absorb hc hh h => exact hg.absorb_sound hc hh h
  | balloonRigid hb hr h => exact hg.balloonRigid_sound hb hr h
  | pointRigid hm ho hne hr hv h => exact hg.pointRigid_sound hm ho hne hr hv h
  | rigidRigid hm ho hne _ h => exact hg.rigidRigid_sound hm ho hne h
  | balloons hm ho hne hb h => exact hg.balloons_sound hm ho hne hb h
  | hedgehogs hm ho hne h => exact hg.hedgehogs_sound hm ho hne h
  | threeRigids hm h₁ h₂ hne₁ _ _ h => exact hg.threeRigids_sound hm h₁ h₂ hne₁ h
  | angleBetween hr hn hh hne _ _ hb hcentre ha hc =>
    -- The arms are in one rigid each and their vertex in both, so the angle is between the rigids.
    obtain ⟨ha, har, han⟩ := armTo?_eq_some ha
    obtain ⟨hc, hcn, -⟩ := armTo?_eq_some hc
    refine hg.joinByAngle_sound hr hn hh hne rfl ha hc (fun e => han (e ▸ hcn)) ?_
    rintro v (rfl | rfl | rfl)
    · exact .inl (hcentre ▸ (only?_shared hb).1.1)
    · exact .inl har
    · exact .inr hcn
  | angleBeside hr hn hh hne _ _ hb hsides hcentre _ hba hc =>
    obtain ⟨harm, hcf, hcn⟩ := armTo?_eq_some hc
    obtain ⟨⟨hbr, hbn⟩, -⟩ := only?_shared hb
    -- Either rigid may be the one with the centre.
    rcases hsides with ⟨rfl, rfl, -, -⟩ | ⟨rfl, rfl, -, -⟩
    · refine hg.joinByAngle_sound hr hn hh hne rfl hba harm (fun e => hcn (e ▸ hbr)) ?_
      rintro v (rfl | rfl | rfl)
      · exact .inl hcentre
      · exact .inl hbr
      · exact .inr hcf
    · refine hg.joinByAngle_sound hr hn hh hne rfl hba harm (fun e => hcn (e ▸ hbn)) ?_
      rintro v (rfl | rfl | rfl)
      · exact .inr hcentre
      · exact .inl hbr
      · exact .inl hcf
  | extend hs hh hk hc h => exact hg.extend_sound hs hh hk hc h
  | triangle hm ho hb ha hc h => exact hg.triangle_sound hm ho hb ha hc h

end Decomposition

end PlanarSketch
