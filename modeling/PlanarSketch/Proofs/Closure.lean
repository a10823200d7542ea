/-
What a saturated decomposition knows is closed under the rules.

A cluster is known to a decomposition if some top-level cluster determines all
that it determines.  Suppose that a rule applies to known clusters, perhaps in
some other decomposition.  Where the clusters that know them are one and the
same, it knows the outcome too; and where they are different, the rule applies
to them in turn, which saturation excludes.

One guard stands in the way: a hedgehog does not grow by a cluster that it was
computed from.  So the decomposition must be unhindered, that is the guard
must not hold back anything on its top level.

* `Known`, `Unhindered`;
* `Saturated.eq_of_shared`: two rigids or balloons on the top level that share
  two points are the same;
* `Saturated.known_threeRigids`, `known_byAngle`, `known_joined`,
  `known_triangle`: the rules one by one;
* `Finding.known`: what any rule makes of known clusters is known.
-/
import PlanarSketch.Proofs.Searches

namespace PlanarSketch

namespace Decomposition

variable {d x : Decomposition} {b : PointName} {plan : Plan}

/-! ### Known clusters -/

/-- A top-level cluster determines whatever `c` determines. -/
def Known (d : Decomposition) (c : Cluster) : Prop := ∃ p, d.OnTop p ∧ c.Weaker p.cluster

theorem Known.mono {c o : Cluster} (h : d.Known o) (hw : c.Weaker o) : d.Known c := by
  obtain ⟨p, hp, ho⟩ := h
  exact ⟨p, hp, hw.trans ho⟩

theorem known_of_points {c : Cluster} {p : Placed} (hp : d.OnTop p)
    (hk : p.cluster.kind ≠ .hedgehog) (hr : c.isRigid = true → p.cluster.isRigid = true)
    (hv : ∀ v ∈ c, v ∈ p.cluster) : d.Known c :=
  ⟨p, hp, Cluster.weaker_of_points hk hr hv⟩

/-- A rigid or balloon is known by one with all its points, which is rigid if it is. -/
theorem Known.exists_cover {c : Cluster} (h : d.Known c) (hc : c.Valid)
    (hk : c.kind ≠ .hedgehog) : ∃ p, d.OnTop p ∧ p.cluster.kind ≠ .hedgehog ∧
      (c.isRigid = true → p.cluster.isRigid = true) ∧ ∀ v ∈ c, v ∈ p.cluster := by
  obtain ⟨p, hp, hw⟩ := h
  exact ⟨p, hp, hw.kind_ne hc hk, hw.isRigid hc, fun v hv => hw.mem hc hv⟩

/-- A hedgehog is known by a hedgehog with all its arms, or by a rigid or balloon around it. -/
theorem Known.hedgehog_cases {centre : PointName} {arms : NameSet}
    (h : d.Known (.hedgehog centre arms)) (hc : (Cluster.hedgehog centre arms).Valid) :
    (∃ hog : PlacedHedgehog, d.OnTop hog.placed ∧ hog.centre = centre ∧ arms ⊆ hog.arms) ∨
      ∃ p, d.OnTop p ∧ p.cluster.kind ≠ .hedgehog ∧ centre ∈ p.cluster ∧
        ∀ a ∈ arms, a ∈ p.cluster := by
  obtain ⟨p, hp, hw⟩ := h
  by_cases hk : p.cluster.kind = .hedgehog
  · obtain ⟨hog, rfl⟩ := OnTop.exists_hedgehog hk
    exact .inl ⟨hog, hp, (hw.centre_eq hc).symm, hw.arms_subset⟩
  · exact .inr ⟨p, hp, hk, hw.mem hc (Cluster.mem_hedgehog.2 (.inl rfl)),
      fun a ha => hw.mem hc (Cluster.mem_hedgehog.2 (.inr ha))⟩

/-! ### Rigids and balloons -/

/-- In a saturated decomposition two rigids or balloons that share two points are the same. -/
theorem Saturated.eq_of_shared (h : d.Saturated) {p q : Placed} (hp : d.OnTop p) (hq : d.OnTop q)
    (hkp : p.cluster.kind ≠ .hedgehog) (hkq : q.cluster.kind ≠ .hedgehog) {v w : PointName}
    (hvw : v ≠ w) (hv : v ∈ p.cluster ∧ v ∈ q.cluster) (hw : w ∈ p.cluster ∧ w ∈ q.cluster) :
    p = q := by
  refine Classical.not_not.1 fun hne => ?_
  have hid : q.id ≠ p.id := fun he => hne (hq.eq_of_id hp he).symm
  have hshared : 2 ≤ (p.cluster.shared q.cluster).size :=
    NameSet.two_le_size_iff.2 ⟨v, w, Cluster.mem_shared.2 hv, Cluster.mem_shared.2 hw, hvw⟩
  have hshared' : 2 ≤ (q.cluster.shared p.cluster).size := by rwa [shared_comm]
  have hnone := saturated_iff.1 h
  -- Each combination of kinds has its rule.
  cases hp' : p.cluster.kind with
  | hedgehog => exact hkp hp'
  | rigid =>
    have hpr := Cluster.isRigid_iff.2 hp'
    cases hq' : q.cluster.kind with
    | hedgehog => exact hkq hq'
    | rigid =>
      exact hnone _ _ (.rigidRigid hp hq hid hpr
        (if_pos (by simp [Cluster.isRigid_iff.2 hq', hshared])))
    | balloon =>
      exact hnone _ _ (.balloonRigid hq hp (if_pos (by simp [hq', hpr, hshared'])))
  | balloon =>
    cases hq' : q.cluster.kind with
    | hedgehog => exact hkq hq'
    | rigid =>
      exact hnone _ _ (.balloonRigid hp hq
        (if_pos (by simp [hp', Cluster.isRigid_iff.2 hq', hshared])))
    | balloon => exact hnone _ _ (.balloons hp hq hid hp' (if_pos (by simp [hq', hshared])))

/-- So they share one point at most if they are different. -/
theorem Saturated.only?_shared (h : d.Saturated) {p q : Placed} (hp : d.OnTop p) (hq : d.OnTop q)
    (hkp : p.cluster.kind ≠ .hedgehog) (hkq : q.cluster.kind ≠ .hedgehog) (hne : p ≠ q)
    (hb : b ∈ p.cluster ∧ b ∈ q.cluster) : (p.cluster.shared q.cluster).only? = some b := by
  refine NameSet.only?_eq_some.2 fun v => ⟨fun hv => ?_, ?_⟩
  · refine Classical.not_not.1 fun hvb => hne ?_
    exact h.eq_of_shared hp hq hkp hkq hvb (Cluster.mem_shared.1 hv) hb
  · rintro rfl
    exact Cluster.mem_shared.2 hb

/-- Two known rigids or balloons that share two points are known by the same cluster. -/
theorem Saturated.exists_cover_of_shared (h : d.Saturated) {c e : Cluster} (hc : c.Valid)
    (he : e.Valid) (hkc : c.kind ≠ .hedgehog) (hke : e.kind ≠ .hedgehog) (hdc : d.Known c)
    (hde : d.Known e) (h2 : 2 ≤ (c.shared e).size) :
    ∃ p, d.OnTop p ∧ p.cluster.kind ≠ .hedgehog ∧
      (c.isRigid = true ∨ e.isRigid = true → p.cluster.isRigid = true) ∧
      ∀ v, v ∈ c.points ∪ e.points → v ∈ p.cluster := by
  obtain ⟨p, hp, hkp, hrp, hvp⟩ := hdc.exists_cover hc hkc
  obtain ⟨q, hq, hkq, hrq, hvq⟩ := hde.exists_cover he hke
  obtain ⟨v, w, hv, hw, hvw⟩ := NameSet.two_le_size_iff.1 h2
  obtain ⟨hvc, hve⟩ := Cluster.mem_shared.1 hv
  obtain ⟨hwc, hwe⟩ := Cluster.mem_shared.1 hw
  obtain rfl := h.eq_of_shared hp hq hkp hkq hvw ⟨hvp v hvc, hvq v hve⟩ ⟨hvp w hwc, hvq w hwe⟩
  exact ⟨p, hp, hkp, fun hr => hr.elim hrp hrq,
    fun v hv => (NameSet.mem_union.1 hv).elim (hvp v) (hvq v)⟩

theorem kind_ne_of_isRigid {c : Cluster} (h : c.isRigid = true) : c.kind ≠ .hedgehog := by
  rw [Cluster.isRigid_iff.1 h]
  decide

/-- Three rigids that share a point pairwise, three different points in all, are the same. -/
theorem Saturated.eq_of_threeRigids (h : d.Saturated) {t₁ t₂ t₃ : Placed} (h₁ : d.OnTop t₁)
    (h₂ : d.OnTop t₂) (h₃ : d.OnTop t₃) (hr₁ : t₁.cluster.isRigid = true)
    (hr₂ : t₂.cluster.isRigid = true) (hr₃ : t₃.cluster.isRigid = true) {p q r : PointName}
    (hp : p ∈ t₁.cluster ∧ p ∈ t₂.cluster) (hq : q ∈ t₂.cluster ∧ q ∈ t₃.cluster)
    (hr : r ∈ t₃.cluster ∧ r ∈ t₁.cluster) (hpq : p ≠ q) (hqr : q ≠ r) (hrp : r ≠ p) :
    t₁ = t₂ ∧ t₁ = t₃ := by
  have hk₁ := kind_ne_of_isRigid hr₁
  have hk₂ := kind_ne_of_isRigid hr₂
  have hk₃ := kind_ne_of_isRigid hr₃
  -- If two of them are the same, the third one shares two points with these.
  have h₁₂ : t₁ = t₂ → t₁ = t₃ := fun he =>
    h.eq_of_shared h₁ h₃ hk₁ hk₃ hqr ⟨he ▸ hq.1, hq.2⟩ hr.symm
  have h₁₃ : t₁ = t₃ → t₁ = t₂ := fun he =>
    h.eq_of_shared h₁ h₂ hk₁ hk₂ hpq hp ⟨he ▸ hq.2, hq.1⟩
  have h₂₃ : t₂ = t₃ → t₁ = t₂ := fun he =>
    h.eq_of_shared h₁ h₂ hk₁ hk₂ hrp ⟨hr.2, he ▸ hr.1⟩ hp
  have hsame : t₁ = t₂ := by
    refine Classical.not_not.1 fun hne => ?_
    have hne₁ : t₃ ≠ t₁ := fun he => hne (h₁₃ he.symm)
    have hne₂ : t₂ ≠ t₃ := fun he => hne (h₂₃ he)
    have hplan : ∃ plan, d.threeRigids? t₁ t₂ t₃ = some plan := by
      have hid : t₃.id ≠ t₂.id := fun he => hne₂ (h₃.eq_of_id h₂ he).symm
      simp [threeRigids?, hr₂, hr₃, hid, h.only?_shared h₁ h₂ hk₁ hk₂ hne hp,
        h.only?_shared h₂ h₃ hk₂ hk₃ hne₂ hq, h.only?_shared h₃ h₁ hk₃ hk₁ hne₁ hr, hpq, hqr, hrp]
    obtain ⟨plan, hplan⟩ := hplan
    exact saturated_iff.1 h _ plan (.threeRigids h₁ h₂ h₃ (fun he => hne (h₂.eq_of_id h₁ he).symm)
      (fun he => hne₁ (h₃.eq_of_id h₁ he)) hr₁ hplan)
  exact ⟨hsame, h₁₂ hsame⟩

/-- Of three such rigids that are known the union is known. -/
theorem Saturated.known_threeRigids (h : d.Saturated) {a b c : Cluster} (ha : a.Valid)
    (hb : b.Valid) (hc : c.Valid) (har : a.isRigid = true) (hbr : b.isRigid = true)
    (hcr : c.isRigid = true) (hka : d.Known a) (hkb : d.Known b) (hkc : d.Known c)
    {p q r : PointName} (hp : p ∈ a ∧ p ∈ b) (hq : q ∈ b ∧ q ∈ c) (hr : r ∈ c ∧ r ∈ a)
    (hpq : p ≠ q) (hqr : q ≠ r) (hrp : r ≠ p) :
    d.Known (.rigid (a.points ∪ b.points ∪ c.points)) := by
  obtain ⟨t₁, ht₁, hk₁, hR₁, hv₁⟩ := hka.exists_cover ha (kind_ne_of_isRigid har)
  obtain ⟨t₂, ht₂, -, hR₂, hv₂⟩ := hkb.exists_cover hb (kind_ne_of_isRigid hbr)
  obtain ⟨t₃, ht₃, -, hR₃, hv₃⟩ := hkc.exists_cover hc (kind_ne_of_isRigid hcr)
  obtain ⟨rfl, rfl⟩ := h.eq_of_threeRigids ht₁ ht₂ ht₃ (hR₁ har) (hR₂ hbr) (hR₃ hcr)
    ⟨hv₁ p hp.1, hv₂ p hp.2⟩ ⟨hv₂ q hq.1, hv₃ q hq.2⟩ ⟨hv₃ r hr.1, hv₁ r hr.2⟩ hpq hqr hrp
  refine known_of_points ht₁ hk₁ (fun _ => hR₁ har) fun v hv => ?_
  rw [Cluster.mem_rigid, NameSet.mem_union, NameSet.mem_union] at hv
  exact hv.elim (fun hv => hv.elim (hv₁ v) (hv₂ v)) (hv₃ v)

/-! ### Angles between two rigids -/

theorem SeesAcross.widen {near far near' far' : Cluster} {hog hog' : PlacedHedgehog}
    (h : SeesAcross near far b hog) (hb : b ∈ near) (hnear : ∀ v ∈ near, v ∈ near')
    (hfar : ∀ v ∈ far, v ∈ far') (honly : ∀ v, v ∈ near' → v ∈ far' → v = b)
    (hc : hog'.centre = hog.centre) (ha : hog.arms ⊆ hog'.arms) :
    SeesAcross near' far' b hog' := by
  obtain ⟨hcentre, hne, hba, c, hcarm, hcfar, hcnear⟩ := h
  refine ⟨hc ▸ hnear _ hcentre, hc ▸ hne, ha b hba, c, ha c hcarm, hfar c hcfar, fun hc' => ?_⟩
  exact hcnear (honly c hc' (hfar c hcfar) ▸ hb)

/-- An angle between two rigids is one between larger rigids that still share one point, given by a
larger hedgehog. -/
theorem GivesAngle.widen {r n r' n' : Cluster} {hog hog' : PlacedHedgehog}
    (h : GivesAngle r n b hog) (hb : b ∈ r ∧ b ∈ n) (hr : ∀ v ∈ r, v ∈ r') (hn : ∀ v ∈ n, v ∈ n')
    (honly : ∀ v, v ∈ r' → v ∈ n' → v = b) (hc : hog'.centre = hog.centre)
    (ha : hog.arms ⊆ hog'.arms) : GivesAngle r' n' b hog' := by
  rcases h with ⟨hcentre, ⟨a, haa, har, han⟩, c, hca, hcn, hcr⟩ | hs | hs
  · refine .inl ⟨hc.trans hcentre, ⟨a, ha a haa, hr a har, fun h' => ?_⟩, c, ha c hca, hn c hcn,
      fun h' => ?_⟩
    · exact han (honly a (hr a har) h' ▸ hb.2)
    · exact hcr (honly c h' (hn c hcn) ▸ hb.1)
  · exact .inr (.inl (hs.widen hb.1 hr hn honly hc ha))
  · exact .inr (.inr (hs.widen hb.2 hn hr (fun v h₁ h₂ => honly v h₂ h₁) hc ha))

/-- Two rigids around two others between which a known hedgehog gives an angle are the same. -/
theorem Saturated.eq_of_angle (h : d.Saturated) {t₁ t₂ : Placed} (h₁ : d.OnTop t₁)
    (h₂ : d.OnTop t₂) (hr₁ : t₁.cluster.isRigid = true) (hr₂ : t₂.cluster.isRigid = true)
    {r n : Cluster} {hog : PlacedHedgehog} (hr : ∀ v ∈ r, v ∈ t₁.cluster)
    (hn : ∀ v ∈ n, v ∈ t₂.cluster) (hb : b ∈ r ∧ b ∈ n) (ha : GivesAngle r n b hog)
    (hv : hog.placed.cluster.Valid) (hk : d.Known hog.placed.cluster) : t₁ = t₂ := by
  refine Classical.not_not.1 fun hne => ?_
  have hk₁ := kind_ne_of_isRigid hr₁
  have hk₂ := kind_ne_of_isRigid hr₂
  have honly := h.only?_shared h₁ h₂ hk₁ hk₂ hne ⟨hr b hb.1, hn b hb.2⟩
  rcases hk.hedgehog_cases hv with ⟨hog', hh, hc, harms⟩ | ⟨p, hp, hkp, hpc, hpa⟩
  · have hwide := ha.widen hb hr hn (PlanarSketch.Decomposition.only?_shared honly).2 hc harms
    obtain ⟨plan, hplan⟩ := Option.ne_none_iff_exists'.1 (rigidsByAngle?_ne_none hh honly hwide)
    have hid : t₂.id ≠ t₁.id := fun he => hne (h₂.eq_of_id h₁ he).symm
    obtain ⟨ps, hf⟩ := finding_of_rigidsByAngle? h₁ h₂ hid hr₁ hr₂ hplan
    exact saturated_iff.1 h ps plan hf
  · -- A rigid or balloon around the hedgehog shares two points with both.
    have hmem : ∀ v ∈ hog.placed.cluster, v ∈ p.cluster := fun v hv =>
      (Cluster.mem_hedgehog.1 hv).elim (fun he => he ▸ hpc) (hpa v)
    obtain ⟨hbh, ⟨v, hvh, hvr, hvb⟩, w, hwh, hwn, hwb⟩ := ha.points hb.1 hb.2
    have he₁ := h.eq_of_shared hp h₁ hkp hk₁ hvb ⟨hmem v hvh, hr v hvr⟩ ⟨hmem b hbh, hr b hb.1⟩
    have he₂ := h.eq_of_shared hp h₂ hkp hk₂ hwb ⟨hmem w hwh, hn w hwn⟩ ⟨hmem b hbh, hn b hb.2⟩
    exact hne (he₁.symm.trans he₂)

/-- Of two known rigids between which a known hedgehog gives an angle the union is known. -/
theorem Saturated.known_byAngle (h : d.Saturated) {r n : Cluster} {hog : PlacedHedgehog}
    (hvr : r.Valid) (hvn : n.Valid) (hrr : r.isRigid = true) (hnr : n.isRigid = true)
    (hkr : d.Known r) (hkn : d.Known n) (ha : GivesAngle r n b hog) (hb : b ∈ r ∧ b ∈ n)
    (hv : hog.placed.cluster.Valid) (hk : d.Known hog.placed.cluster) :
    d.Known (.rigid (r.points ∪ n.points)) := by
  obtain ⟨t₁, ht₁, hk₁, hR₁, hv₁⟩ := hkr.exists_cover hvr (kind_ne_of_isRigid hrr)
  obtain ⟨t₂, ht₂, -, hR₂, hv₂⟩ := hkn.exists_cover hvn (kind_ne_of_isRigid hnr)
  obtain rfl := h.eq_of_angle ht₁ ht₂ (hR₁ hrr) (hR₂ hnr) hv₁ hv₂ hb ha hv hk
  exact known_of_points ht₁ hk₁ (fun _ => hR₁ hrr)
    fun v hv => (NameSet.mem_union.1 hv).elim (hv₁ v) (hv₂ v)

/-! ### Hedgehogs -/

/-- Whether a hedgehog would grow by a rigid or balloon if it had not been computed from it. -/
def hinders (d : Decomposition) (source hog : ClusterId) : Bool :=
  match d.cluster? source, d.cluster? hog with
  | some c, some (.hedgehog centre arms) =>
    c.kind ≠ .hedgehog && centre ∈ c && !(c.points.erase centre).Disjoint arms
      && !(c.points.erase centre ⊆ arms : Bool) && d.dependsOn hog source
  | _, _ => false

/-- On the top level no hedgehog is kept from growing by what it was computed from. -/
def Unhindered (d : Decomposition) : Prop :=
  ∀ source ∈ d.topLevel, ∀ hog ∈ d.topLevel, d.hinders source hog = false

instance (d : Decomposition) : Decidable d.Unhindered :=
  inferInstanceAs (Decidable (∀ source ∈ d.topLevel.toList, ∀ hog ∈ d.topLevel.toList,
    d.hinders source hog = false))

theorem hinders_eq_true {source : Placed} {hog : PlacedHedgehog} (hs : d.OnTop source)
    (hh : d.OnTop hog.placed) (hk : source.cluster.kind ≠ .hedgehog)
    (hc : hog.centre ∈ source.cluster)
    (ha : ¬(source.cluster.points.erase hog.centre).Disjoint hog.arms)
    (hb : ¬source.cluster.points.erase hog.centre ⊆ hog.arms)
    (hdep : d.dependsOn hog.id source.id = true) : d.hinders source.id hog.id = true := by
  have h₁ : d.cluster? source.id = some source.cluster := hs.2
  have h₂ : d.cluster? hog.id = some (.hedgehog hog.centre hog.arms) := hh.2
  simp [hinders, h₁, h₂, hk, hc, ha, hb, hdep]

/-- Where nothing is hindered a hedgehog sees all of a rigid or balloon that it can grow by. -/
theorem Saturated.subset_arms (h : d.Saturated) (hu : d.Unhindered) {p : Placed}
    {hog : PlacedHedgehog} (hp : d.OnTop p) (hh : d.OnTop hog.placed)
    (hk : p.cluster.kind ≠ .hedgehog) (hc : hog.centre ∈ p.cluster) {a : PointName}
    (ha : a ∈ p.cluster) (hah : a ∈ hog.arms) (hac : a ≠ hog.centre) :
    p.cluster.points.erase hog.centre ⊆ hog.arms := by
  refine Classical.not_not.1 fun hsub => ?_
  have hseen : a ∈ p.cluster.points.erase hog.centre := NameSet.mem_erase.2 ⟨ha, hac⟩
  have hdis : ¬(p.cluster.points.erase hog.centre).Disjoint hog.arms := fun hdis => hdis a hseen hah
  -- If it saw less, it would be held back or it could grow.  It is not held back.
  have hdep : d.dependsOn hog.id p.id = false := by
    rw [← Bool.not_eq_true]
    intro hdep
    have hind := hu p.id hp.1 hog.id hh.1
    rw [hinders_eq_true hp hh hk hc hdis hsub hdep] at hind
    cases hind
  -- A point that it does not see and `a` are two.
  have hsize : ¬(p.cluster.points.erase hog.centre).size < 2 := by
    rw [NameSet.subset_def] at hsub
    simp only [Classical.not_forall] at hsub
    obtain ⟨v, hv, hvh⟩ := hsub
    have hne : a ≠ v := fun he => hvh (he ▸ hah)
    exact Nat.not_lt.2 (NameSet.two_le_size_iff.2 ⟨a, v, hseen, hv, hne⟩)
  -- So it can grow, and a saturated decomposition leaves nothing to be found.
  have hplan : ∃ plan, d.extendHedgehog? p hog = some plan :=
    ⟨_, if_neg (by simp [hsize, hdis, hsub, hdep])⟩
  obtain ⟨plan, hplan⟩ := hplan
  exact saturated_iff.1 h _ plan (.extend hp hh hk hc hplan)

/-- Two hedgehogs with one centre that share an arm are the same. -/
theorem Saturated.eq_of_arm (h : d.Saturated) {g g' : PlacedHedgehog} (hg : d.OnTop g.placed)
    (hg' : d.OnTop g'.placed) (hc : g'.centre = g.centre) {a : PointName} (ha : a ∈ g.arms)
    (ha' : a ∈ g'.arms) : g = g' := by
  have hid : g'.id = g.id := by
    refine Classical.not_not.1 fun hid => ?_
    have hsize : (g.arms ∩ g'.arms).size ≠ 0 :=
      Nat.pos_iff_ne_zero.1 (NameSet.size_pos_iff.2 ⟨a, NameSet.mem_inter.2 ⟨ha, ha'⟩⟩)
    have hplan : ∃ plan, hedgehogs? g g'.placed = some plan :=
      ⟨_, if_pos (by simp [hc, hsize])⟩
    obtain ⟨plan, hplan⟩ := hplan
    exact saturated_iff.1 h _ plan (.hedgehogs hg hg' hid hplan)
  have he := congrArg Placed.cluster (hg'.eq_of_id hg hid)
  obtain ⟨i, centre, arms⟩ := g
  obtain ⟨i', centre', arms'⟩ := g'
  obtain ⟨rfl, rfl⟩ := Cluster.hedgehog.inj he
  obtain rfl : i' = i := hid
  rfl

/-- Of two known hedgehogs with one centre that share an arm the union is known. -/
theorem Saturated.known_joined (h : d.Saturated) (hu : d.Unhindered) {centre a : PointName}
    {arms₁ arms₂ : NameSet} (hv₁ : (Cluster.hedgehog centre arms₁).Valid)
    (hv₂ : (Cluster.hedgehog centre arms₂).Valid) (hk₁ : d.Known (.hedgehog centre arms₁))
    (hk₂ : d.Known (.hedgehog centre arms₂)) (ha₁ : a ∈ arms₁) (ha₂ : a ∈ arms₂) :
    d.Known (.hedgehog centre (arms₁ ∪ arms₂)) := by
  have hac : a ≠ centre := fun he => (Cluster.valid_hedgehog_iff.1 hv₁).1 (he ▸ ha₁)
  have hunion : ∀ {s : NameSet}, arms₁ ⊆ s → arms₂ ⊆ s → arms₁ ∪ arms₂ ⊆ s := fun h₁ h₂ v hv =>
    (NameSet.mem_union.1 hv).elim (h₁ v) (h₂ v)
  -- A hedgehog beside a rigid or balloon sees all of it.
  have hmixed : ∀ {g : PlacedHedgehog} {p : Placed} {s t : NameSet}, d.OnTop g.placed →
      d.OnTop p → g.centre = centre → s ⊆ g.arms → p.cluster.kind ≠ .hedgehog →
      centre ∈ p.cluster → (∀ v ∈ t, v ∈ p.cluster) → centre ∉ t → a ∈ s → a ∈ t → t ⊆ g.arms := by
    rintro g p s t hg hp rfl hs hk hc ht hct has hat v hv
    have hvc : v ≠ g.centre := fun he => hct (he ▸ hv)
    exact h.subset_arms hu hp hg hk hc (ht a hat) (hs a has) hac v
      (NameSet.mem_erase.2 ⟨ht v hv, hvc⟩)
  have hc₁ := (Cluster.valid_hedgehog_iff.1 hv₁).1
  have hc₂ := (Cluster.valid_hedgehog_iff.1 hv₂).1
  rcases hk₁.hedgehog_cases hv₁ with ⟨g, hg, rfl, hs₁⟩ | ⟨p, hp, hkp, hpc, hpa⟩
  · refine ⟨g.placed, hg, Cluster.weaker_of_arms (hunion hs₁ ?_)⟩
    rcases hk₂.hedgehog_cases hv₂ with ⟨g', hg', hc', hs₂⟩ | ⟨q, hq, hkq, hqc, hqa⟩
    · rw [h.eq_of_arm hg hg' hc' (hs₁ a ha₁) (hs₂ a ha₂)]
      exact hs₂
    · exact hmixed hg hq rfl hs₁ hkq hqc hqa hc₂ ha₁ ha₂
  · rcases hk₂.hedgehog_cases hv₂ with ⟨g, hg, rfl, hs₂⟩ | ⟨q, hq, hkq, hqc, hqa⟩
    · refine ⟨g.placed, hg, Cluster.weaker_of_arms (hunion ?_ hs₂)⟩
      exact hmixed hg hp rfl hs₂ hkp hpc hpa hc₁ ha₂ ha₁
    · obtain rfl := h.eq_of_shared hp hq hkp hkq hac ⟨hpa a ha₁, hqa a ha₂⟩ ⟨hpc, hqc⟩
      refine known_of_points hp hkp (fun hr => by cases hr) fun v hv => ?_
      rcases Cluster.mem_hedgehog.1 hv with rfl | hv
      · exact hpc
      · exact (NameSet.mem_union.1 hv).elim (hpa v) (hqa v)

/-- The balloon of two known hedgehogs that see each other's centre and a common point is known. -/
theorem Saturated.known_triangle (h : d.Saturated) {a b c : PointName} {arms₁ arms₂ : NameSet}
    (hv₁ : (Cluster.hedgehog a arms₁).Valid) (hv₂ : (Cluster.hedgehog b arms₂).Valid)
    (hk₁ : d.Known (.hedgehog a arms₁)) (hk₂ : d.Known (.hedgehog b arms₂)) (hb : b ∈ arms₁)
    (ha : a ∈ arms₂) (hc₁ : c ∈ arms₁) (hc₂ : c ∈ arms₂) :
    d.Known (.balloon (.ofList [a, b, c])) := by
  -- A rigid or balloon with the three points knows their balloon.
  have hcover : ∀ {p : Placed}, d.OnTop p → p.cluster.kind ≠ .hedgehog → a ∈ p.cluster →
      b ∈ p.cluster → c ∈ p.cluster → d.Known (.balloon (.ofList [a, b, c])) := by
    intro p hp hk ha hb hc
    refine known_of_points hp hk (fun hr => by cases hr) fun v hv => ?_
    rw [Cluster.mem_balloon, NameSet.mem_ofList] at hv
    simp only [List.mem_cons, List.not_mem_nil, or_false] at hv
    rcases hv with rfl | rfl | rfl <;> assumption
  rcases hk₁.hedgehog_cases hv₁ with ⟨g, hg, rfl, hs₁⟩ | ⟨p, hp, hkp, hpc, hpa⟩
  · rcases hk₂.hedgehog_cases hv₂ with ⟨g', hg', rfl, hs₂⟩ | ⟨q, hq, hkq, hqc, hqa⟩
    · cases hcov : d.covered (.ofList [g.centre, g'.centre, c]) with
      | true =>
        -- Two hedgehogs give a triangle, unless there is a cover of its points already.
        obtain ⟨p, hp, hk, hv⟩ := covered_iff.1 hcov
        exact hcover hp hk (hv _ (by simp)) (hv _ (by simp)) (hv _ (by simp))
      | false =>
        have hplan : ∃ plan, d.triangleOver? g g' c = some plan := ⟨_, if_neg (by simp [hcov])⟩
        obtain ⟨plan, hplan⟩ := hplan
        refine absurd (.triangle hg hg' (hs₁ _ hb) (hs₂ _ ha) ?_ hplan) (saturated_iff.1 h _ plan)
        exact NameSet.mem_inter.2 ⟨hs₁ c hc₁, hs₂ c hc₂⟩
    · -- Otherwise a rigid or balloon stands above one of them, and it has all three points.
      exact hcover hq hkq (hqa _ ha) hqc (hqa c hc₂)
  · exact hcover hp hkp hpc (hpa b hb) (hpa c hc₁)

/-! ### All rules -/

/-- What a rule makes of clusters that a saturated and unhindered decomposition knows, it knows. -/
theorem Finding.known {ps : List ClusterId} (hf : Finding x ps plan) (hx : x.Grounded)
    (h : d.Saturated) (hu : d.Unhindered) (hk : ∀ p, x.OnTop p → d.Known p.cluster) :
    d.Known plan.output := by
  have hvalid : ∀ {p : Placed}, x.OnTop p → p.cluster.Valid := fun hp => hx.valid _ _ hp.2
  cases hf with
  | absorb hc hh hplan =>
    obtain ⟨-, -, -, -, rfl⟩ := absorb?_eq_some hplan
    exact hk _ hc
  | balloonRigid hb hr hplan =>
    obtain ⟨hbk, hrr, h2, rfl⟩ := balloonRigid?_eq_some hplan
    obtain ⟨p, hp, hkp, hrp, hvp⟩ := h.exists_cover_of_shared (hvalid hb) (hvalid hr)
      (by simp [hbk]) (kind_ne_of_isRigid hrr) (hk _ hb) (hk _ hr) h2
    exact known_of_points hp hkp (fun _ => hrp (.inr hrr)) hvp
  | pointRigid hm ho _ _ _ hplan =>
    obtain ⟨-, ⟨-, rfl⟩ | ⟨-, -, rfl⟩⟩ := pointRigid?_eq_some hplan
    · exact hk _ ho
    · exact hk _ hm
  | rigidRigid hm ho _ hmr hplan =>
    obtain ⟨hor, h2, rfl⟩ := rigidRigid?_eq_some hplan
    obtain ⟨p, hp, hkp, hrp, hvp⟩ := h.exists_cover_of_shared (hvalid hm) (hvalid ho)
      (kind_ne_of_isRigid hmr) (kind_ne_of_isRigid hor) (hk _ hm) (hk _ ho) h2
    exact known_of_points hp hkp (fun _ => hrp (.inl hmr)) hvp
  | balloons hm ho _ hmb hplan =>
    obtain ⟨hob, h2, rfl⟩ := balloons?_eq_some hplan
    obtain ⟨p, hp, hkp, -, hvp⟩ := h.exists_cover_of_shared (hvalid hm) (hvalid ho)
      (by simp [hmb]) (by simp [hob]) (hk _ hm) (hk _ ho) h2
    exact known_of_points hp hkp (fun hr => by cases hr) hvp
  | @hedgehogs me other _ hm ho _ hplan =>
    obtain ⟨arms, a, hother, ha₁, ha₂, rfl⟩ := hedgehogs?_eq_some hplan
    have hv := hvalid ho
    have hko := hk _ ho
    rw [hother] at hv hko
    exact h.known_joined hu (hvalid hm) hv (hk _ hm) hko ha₁ ha₂
  | threeRigids hm h₁ h₂ _ _ hmr hplan =>
    obtain ⟨hr₁, hr₂, -, p, q, r, hp, hq, hr, hpq, hqr, hrp, rfl⟩ := threeRigids?_eq_some hplan
    exact h.known_threeRigids (hvalid hm) (hvalid h₁) (hvalid h₂) hmr hr₁ hr₂ (hk _ hm) (hk _ h₁)
      (hk _ h₂) (only?_shared hp).1 (only?_shared hq).1 (only?_shared hr).1 hpq hqr hrp
  | angleBetween hr hn hh _ hrr hnr hb hcentre ha hc =>
    exact h.known_byAngle (hvalid hr) (hvalid hn) hrr hnr (hk _ hr) (hk _ hn)
      (givesAngle_between hcentre ha hc) (only?_shared hb).1 (hvalid hh) (hk _ hh)
  | angleBeside hr hn hh _ hrr hnr hb hsides hcentre hcb hba hc =>
    exact h.known_byAngle (hvalid hr) (hvalid hn) hrr hnr (hk _ hr) (hk _ hn)
      (givesAngle_beside (hsides.imp (fun h => ⟨h.1, h.2.1⟩) fun h => ⟨h.1, h.2.1⟩) hcentre hcb hba
        hc) (only?_shared hb).1 (hvalid hh) (hk _ hh)
  | @extend source hog _ hs hh hsk hc hplan =>
    obtain ⟨h2, ⟨a, haseen, harms⟩, -, -, rfl⟩ := extendHedgehog?_eq_some hplan
    -- What the source knows at the centre is a hedgehog of its own.
    have hw : (Cluster.hedgehog hog.centre (source.cluster.points.erase hog.centre)).Weaker
        source.cluster := by
      refine Cluster.weaker_of_points hsk (fun hr => by cases hr) fun v hv => ?_
      rcases Cluster.mem_hedgehog.1 hv with rfl | hv
      · exact hc
      · exact (NameSet.mem_erase.1 hv).1
    exact h.known_joined hu (hvalid hh) (Cluster.valid_hedgehog_iff.2 ⟨by simp, h2⟩) (hk _ hh)
      ((hk _ hs).mono hw) harms haseen
  | triangle hm ho hb ha hc hplan =>
    obtain ⟨-, rfl⟩ := triangleOver?_eq_some hplan
    obtain ⟨hc₁, hc₂⟩ := NameSet.mem_inter.1 hc
    exact h.known_triangle (hvalid hm) (hvalid ho) (hk _ hm) (hk _ ho) hb ha hc₁ hc₂

end Decomposition

end PlanarSketch
