/-
What one cluster knows compared with another.

`c.Weaker o` says that `o` determines every relation that `c` determines.  The
relations of a point to itself count here too, so a cluster that is nowhere
weaker has all the points of the other one (`Weaker.mem`), and a hedgehog can
only be stronger than hedgehogs with the same centre and fewer arms
(`Weaker.arms_subset`).

* `valid_rigid_iff`, `valid_hedgehog_iff`, `valid_balloon_iff`: the least sizes;
* `weaker_of_points`, `weaker_of_arms`: when a cluster is weaker than another;
* `Weaker.antisymm`: so clusters are ordered by what they know.
-/
import PlanarSketch.Cluster.Relation
import PlanarSketch.Proofs.Collection

namespace PlanarSketch.Cluster

/-! ### Least sizes -/

instance (c : Cluster) : Decidable c.Valid :=
  match h : c.validate with
  | .ok () => .isTrue h
  | .error _ => .isFalse fun hv => nomatch h.symm.trans hv

theorem valid_rigid_iff {p : NameSet} : (rigid p).Valid ↔ ∃ a, a ∈ p := by
  rw [← NameSet.isEmpty_eq_false_iff]
  show (if p.isEmpty then Except.error ClusterError.emptyRigid else .ok ()) = .ok () ↔ _
  cases p.isEmpty <;> simp

theorem valid_hedgehog_iff {c : PointName} {arms : NameSet} :
    (hedgehog c arms).Valid ↔ c ∉ arms ∧ 2 ≤ arms.size := by
  show (if c ∈ arms then Except.error (ClusterError.centreAmongArms c)
    else if arms.size < 2 then .error (.hedgehogTooSmall arms.size) else .ok ()) = .ok () ↔ _
  by_cases hc : c ∈ arms
  · simp [hc]
  · by_cases hs : arms.size < 2
    · simp [hc, hs]
    · simp [hc, hs]
      omega

theorem valid_balloon_iff {p : NameSet} : (balloon p).Valid ↔ 3 ≤ p.size := by
  show (if p.size < 3 then Except.error (ClusterError.balloonTooSmall p.size) else .ok ()) = .ok ()
    ↔ _
  by_cases hs : p.size < 3
  · simp [hs]
  · simp [hs]
    omega

/-- A valid cluster has a point. -/
theorem Valid.exists_mem {c : Cluster} (h : c.Valid) : ∃ v, v ∈ c := by
  cases c with
  | rigid p => exact valid_rigid_iff.1 h
  | hedgehog c arms => exact ⟨c, mem_hedgehog.2 (.inl rfl)⟩
  | balloon p =>
    have h3 := valid_balloon_iff.1 h
    have hpos : 0 < p.size := by omega
    exact NameSet.size_pos_iff.1 hpos

/-! ### Kinds -/

@[simp] theorem isRigid_rigid (p : NameSet) : (rigid p).isRigid = true := rfl

@[simp] theorem isRigid_hedgehog (c : PointName) (arms : NameSet) :
    (hedgehog c arms).isRigid = false := rfl

@[simp] theorem isRigid_balloon (p : NameSet) : (balloon p).isRigid = false := rfl

theorem isRigid_iff {c : Cluster} : c.isRigid = true ↔ c.kind = .rigid := by
  simp [isRigid]

theorem kind_eq_balloon_iff {c : Cluster} : c.kind = .balloon ↔ ∃ p, c = .balloon p := by
  cases c <;> simp [kind]

theorem kind_eq_hedgehog_iff {c : Cluster} :
    c.kind = .hedgehog ↔ ∃ centre arms, c = .hedgehog centre arms := by
  cases c <;> simp [kind]

theorem kind_eq_rigid_iff {c : Cluster} : c.kind = .rigid ↔ ∃ p, c = .rigid p := by
  cases c <;> simp [kind]

/-- The size of a rigid is its number of points. -/
theorem size_of_isRigid {c : Cluster} (h : c.isRigid = true) : c.size = c.points.size := by
  obtain ⟨p, rfl⟩ := kind_eq_rigid_iff.1 (isRigid_iff.1 h)
  rfl

/-! ### Weaker clusters -/

/-- Every relation that `c` determines is determined by `o`. -/
def Weaker (c o : Cluster) : Prop := ∀ r, c.implies r = true → o.implies r = true

theorem Weaker.refl (c : Cluster) : c.Weaker c := fun _ h => h

theorem Weaker.trans {c d e : Cluster} (h : c.Weaker d) (h' : d.Weaker e) : c.Weaker e :=
  fun r hr => h' r (h r hr)

/-- What a cluster determines lies between its points. -/
theorem mem_of_implies_angle {c : Cluster} {a : Angle} (h : c.implies (.angle a) = true) :
    a.vertex ∈ c ∧ a.a ∈ c ∧ a.c ∈ c := by
  cases c with
  | rigid p => simpa [implies] using h
  | balloon p => simpa [implies] using h
  | hedgehog centre arms =>
    simp only [implies, Bool.and_eq_true, decide_eq_true_eq, NameSet.contains_iff] at h
    exact ⟨mem_hedgehog.2 (.inl h.1), mem_hedgehog.2 (.inr h.2.1), mem_hedgehog.2 (.inr h.2.2)⟩

/-- A rigid or a balloon determines every angle between its points. -/
theorem implies_angle_of_mem {o : Cluster} (ho : o.kind ≠ .hedgehog) {a : Angle}
    (h : a.vertex ∈ o ∧ a.a ∈ o ∧ a.c ∈ o) : o.implies (.angle a) = true := by
  cases o with
  | rigid p => simpa [implies] using h
  | balloon p => simpa [implies] using h
  | hedgehog centre arms => exact absurd rfl ho

/-- Any cluster is weaker than a rigid with its points, and one that is not rigid is weaker than a
balloon with its points. -/
theorem weaker_of_points {c o : Cluster} (ho : o.kind ≠ .hedgehog)
    (hr : c.isRigid = true → o.isRigid = true) (h : ∀ v ∈ c, v ∈ o) : c.Weaker o := by
  intro r hc
  match r with
  | .angle a =>
    obtain ⟨h₁, h₂, h₃⟩ := mem_of_implies_angle hc
    exact implies_angle_of_mem ho ⟨h _ h₁, h _ h₂, h _ h₃⟩
  | .distance e =>
    cases c with
    | rigid p =>
      obtain ⟨q, rfl⟩ := kind_eq_rigid_iff.1 (isRigid_iff.1 (hr rfl))
      simp only [implies, Bool.and_eq_true, NameSet.contains_iff] at hc ⊢
      exact ⟨h _ hc.1, h _ hc.2⟩
    | hedgehog centre arms => simp [implies] at hc
    | balloon p => simp [implies] at hc

/-- A hedgehog is weaker than one with the same centre and more arms. -/
theorem weaker_of_arms {centre : PointName} {arms arms' : NameSet} (h : arms ⊆ arms') :
    (hedgehog centre arms).Weaker (hedgehog centre arms') := by
  intro r hr
  match r with
  | .distance _ => simp [implies] at hr
  | .angle a =>
    simp only [implies, Bool.and_eq_true, decide_eq_true_eq, NameSet.contains_iff] at hr ⊢
    exact ⟨hr.1, h _ hr.2.1, h _ hr.2.2⟩

/-- A cluster has the points of the valid clusters that are weaker. -/
theorem Weaker.mem {c o : Cluster} (h : c.Weaker o) (hc : c.Valid) {v : PointName} (hv : v ∈ c) :
    v ∈ o := by
  cases c with
  | rigid p =>
    have hr := h (.angle ⟨v, v, v⟩) (implies_angle_of_mem (by simp [kind]) ⟨hv, hv, hv⟩)
    exact (mem_of_implies_angle hr).1
  | balloon p =>
    have hr := h (.angle ⟨v, v, v⟩) (implies_angle_of_mem (by simp [kind]) ⟨hv, hv, hv⟩)
    exact (mem_of_implies_angle hr).1
  | hedgehog centre arms =>
    -- The angle of an arm with itself has both the centre and the arm in it.
    have harm : ∀ a ∈ arms, centre ∈ o ∧ a ∈ o := by
      intro a ha
      have hr := h (.angle ⟨a, centre, a⟩) (by simp [implies, ha])
      exact ⟨(mem_of_implies_angle hr).1, (mem_of_implies_angle hr).2.1⟩
    rcases mem_hedgehog.1 hv with rfl | hv
    · obtain ⟨a, _, ha, _, _⟩ := NameSet.two_le_size_iff.1 (valid_hedgehog_iff.1 hc).2
      exact (harm a ha).1
    · exact (harm v hv).2

/-- Only hedgehogs are weaker than a hedgehog. -/
theorem Weaker.kind_ne {c o : Cluster} (h : c.Weaker o) (hc : c.Valid) (hk : c.kind ≠ .hedgehog) :
    o.kind ≠ .hedgehog := by
  intro ho
  obtain ⟨centre, arms, rfl⟩ := kind_eq_hedgehog_iff.1 ho
  cases c with
  | rigid p =>
    obtain ⟨v, hv⟩ := valid_rigid_iff.1 hc
    have hr := h (.distance ⟨v, v⟩) (by simp [implies, hv])
    simp [implies] at hr
  | hedgehog centre' arms' => exact hk rfl
  | balloon p =>
    -- Two different points are both vertices, but a hedgehog has one centre.
    obtain ⟨v, w, hv, hw, hvw⟩ :=
      NameSet.two_le_size_iff.1 (Nat.le_of_succ_le (valid_balloon_iff.1 hc))
    have h₁ := h (.angle ⟨v, v, v⟩) (implies_angle_of_mem (by simp [kind]) ⟨hv, hv, hv⟩)
    have h₂ := h (.angle ⟨w, w, w⟩) (implies_angle_of_mem (by simp [kind]) ⟨hw, hw, hw⟩)
    simp only [implies, Bool.and_eq_true, decide_eq_true_eq] at h₁ h₂
    exact hvw (h₁.1.trans h₂.1.symm)

/-- A hedgehog has the arms of the hedgehogs that are weaker. -/
theorem Weaker.arms_subset {centre centre' : PointName} {arms arms' : NameSet}
    (h : (hedgehog centre arms).Weaker (hedgehog centre' arms')) : arms ⊆ arms' := by
  intro a ha
  have hr := h (.angle ⟨a, centre, a⟩) (by simp [implies, ha])
  simp only [implies, Bool.and_eq_true, NameSet.contains_iff] at hr
  exact hr.2.1

/-- Only rigids are stronger than a rigid. -/
theorem Weaker.isRigid {c o : Cluster} (h : c.Weaker o) (hc : c.Valid) (hr : c.isRigid = true) :
    o.isRigid = true := by
  obtain ⟨p, rfl⟩ := kind_eq_rigid_iff.1 (isRigid_iff.1 hr)
  obtain ⟨v, hv⟩ := valid_rigid_iff.1 hc
  have hd := h (.distance ⟨v, v⟩) (by simp [implies, hv])
  cases o with
  | rigid q => rfl
  | hedgehog centre arms => simp [implies] at hd
  | balloon q => simp [implies] at hd

/-- Hedgehogs of which one is weaker have the same centre. -/
theorem Weaker.centre_eq {centre centre' : PointName} {arms arms' : NameSet}
    (h : (hedgehog centre arms).Weaker (hedgehog centre' arms'))
    (hc : (hedgehog centre arms).Valid) : centre = centre' := by
  obtain ⟨a, -, ha, -, -⟩ := NameSet.two_le_size_iff.1 (valid_hedgehog_iff.1 hc).2
  have hr := h (.angle ⟨a, centre, a⟩) (by simp [implies, ha])
  simp only [implies, Bool.and_eq_true, decide_eq_true_eq] at hr
  exact hr.1

/-- Valid clusters that determine the same relations are the same. -/
theorem Weaker.antisymm {c o : Cluster} (h : c.Weaker o) (h' : o.Weaker c) (hc : c.Valid)
    (ho : o.Valid) : c = o := by
  have hmem : ∀ v, v ∈ c ↔ v ∈ o := fun v => ⟨h.mem hc, h'.mem ho⟩
  -- Each kind determines relations that no weaker kind does, so the kinds are the same.
  cases c with
  | rigid p =>
    obtain ⟨q, rfl⟩ := kind_eq_rigid_iff.1 (isRigid_iff.1 (h.isRigid hc rfl))
    exact congrArg rigid (NameSet.ext_mem hmem)
  | balloon p =>
    cases o with
    | rigid q => cases h'.isRigid ho rfl
    | hedgehog centre arms => exact absurd rfl (h.kind_ne hc (by simp [kind]))
    | balloon q => exact congrArg balloon (NameSet.ext_mem hmem)
  | hedgehog centre arms =>
    cases o with
    | rigid q => exact absurd rfl (h'.kind_ne ho (by simp [kind]))
    | balloon q => exact absurd rfl (h'.kind_ne ho (by simp [kind]))
    | hedgehog centre' arms' =>
      rw [h.centre_eq hc, NameSet.ext_mem fun a => ⟨h.arms_subset a, h'.arms_subset a⟩]

end PlanarSketch.Cluster
