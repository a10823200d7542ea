/-
Overconstraint and the number of independent relations.

A rigid of `n` points stands for `2 n - 3` independent relations, a balloon for
one less, and a hedgehog for one less than it has arms.  As long as no hedgehog
is derived, a merge makes of its inputs an output that is worth as much as they
are together, unless the inputs share a relation; then they have it from
different clusters, and the merge is overconstrained.  So what is worth less
than all that was added is overconstrained, in whatever order it was added.

* `Cluster.worth`: the number of independent relations;
* `Underived`: no hedgehog has been derived;
* `Sound.not_agreeOnSources`: without derived hedgehogs no two top-level
  clusters have a relation from the same source;
* `Finding.loses`: what a rule loses, and when it is redundant;
* `Accounted`: the account that the search keeps (`Accounted.process`);
* `Solver.overconstrained_perm`: the order does not matter if no hedgehog is
  derived;
* `Solver.not_overconstrained_perm`: it may matter otherwise.
-/
import PlanarSketch.Proofs.Confluence

namespace PlanarSketch

/-! ### What a cluster is worth -/

namespace Cluster

/-- The number of independent relations that a cluster stands for. -/
def worth : Cluster → Nat
  | .rigid p => 2 * p.size - 3
  | .hedgehog _ arms => arms.size - 1
  | .balloon p => 2 * p.size - 4

/-- Some relation is implied by both clusters. -/
def Shares (c e : Cluster) : Prop :=
  ∃ common, c.intersection e = some common ∧ common.relations ≠ []

theorem pairs_ne_nil {s : NameSet} (h : 2 ≤ s.size) : pairs s.toList ≠ [] := by
  match hl : s.toList with
  | [] => simp [NameSet.size, hl] at h
  | [a] => simp [NameSet.size, hl] at h
  | a :: b :: rest => simp

theorem relations_rigid_ne_nil {p : NameSet} (h : 2 ≤ p.size) : (rigid p).relations ≠ [] := by
  simp [relations, distancesAmong, pairs_ne_nil h]

theorem relations_hedgehog_ne_nil {centre : PointName} {arms : NameSet} (h : 2 ≤ arms.size) :
    (hedgehog centre arms).relations ≠ [] := by
  simp [relations, anglesAt, pairs_ne_nil h]

theorem relations_balloon_ne_nil {p : NameSet} (h : 3 ≤ p.size) : (balloon p).relations ≠ [] := by
  match hl : p.toList with
  | [] => simp [NameSet.size, hl] at h
  | [a] => simp [NameSet.size, hl] at h
  | [a, b] => simp [NameSet.size, hl] at h
  | a :: b :: c :: rest =>
    have hnd := p.nodup_toList
    simp only [hl, List.nodup_cons, List.mem_cons, not_or] at hnd
    have hmem : ∀ v, v = a ∨ v = b ∨ v = c → v ∈ p := by
      intro v hv
      rw [← NameSet.mem_toList, hl]
      rcases hv with rfl | rfl | rfl <;> simp
    have herase : 2 ≤ (p.erase a).size := by
      refine NameSet.two_le_size_iff.2 ⟨b, c, ?_, ?_, hnd.2.1.1⟩
      · exact NameSet.mem_erase.2 ⟨hmem b (.inr (.inl rfl)), Ne.symm hnd.1.1⟩
      · exact NameSet.mem_erase.2 ⟨hmem c (.inr (.inr rfl)), Ne.symm hnd.1.2.1⟩
    intro hnil
    have hat := List.flatMap_eq_nil_iff.1 hnil a (hmem a (.inl rfl))
    exact (relations_hedgehog_ne_nil herase : (hedgehog a (p.erase a)).relations ≠ []) hat

end Cluster

namespace Decomposition

variable {d d' : Decomposition} {a b id : ClusterId} {plan : Plan}

/-! ### Decompositions without derived hedgehogs -/

/-- No merge in use derives a hedgehog. -/
def Underived (d : Decomposition) : Prop := ∀ m ∈ d.merges.values, m.rule ≠ .deriveHedgehog

instance (d : Decomposition) : Decidable d.Underived :=
  inferInstanceAs (Decidable (∀ m ∈ d.merges.values, m.rule ≠ .deriveHedgehog))

theorem Underived.mono (h : d'.Underived)
    (hm : ∀ k m, d.merges.find? k = some m → d'.merges.find? k = some m) : d.Underived := by
  intro m hmem
  obtain ⟨k, hk⟩ := Registry.mem_values_iff.1 hmem
  exact h m (Registry.mem_values_iff.2 ⟨k, hm k m hk⟩)

/-- Every merge consumes what it reads. -/
theorem Underived.consumed_of_feeds (h : d.Underived) (hg : d.Grounded) (hab : d.Feeds a b) :
    ∃ k m, d.merges.find? k = some m ∧ a ∈ m.consumed ∧ m.output = b := by
  obtain ⟨k, m, hk, hin, rfl⟩ := hab
  have hr := h m (Registry.mem_values_iff.2 ⟨k, hk⟩)
  refine ⟨k, m, hk, ?_, rfl⟩
  rw [(hg.merge k m hk).consumption, MergeRule.isDerivation_eq_false.2 hr]
  exact hin

/-- No two clusters on the top level were computed from one cluster. -/
theorem Sound.eq_of_leadsTo (h : d.Sound) (hu : d.Underived) {s : ClusterId}
    (ha : a ∈ d.topLevel) (hb : b ∈ d.topLevel) (hsa : d.LeadsTo s a) (hsb : d.LeadsTo s b) :
    a = b :=
  h.eq_of_common_source (fun _ _ hf => hu.consumed_of_feeds h.grounded hf) ha hb hsa hsb

theorem Sound.unhindered (h : d.Sound) (hl : d.Lineage) (hu : d.Underived) : d.Unhindered := by
  intro source hs hog hh
  rw [← Bool.not_eq_true]
  intro hhinders
  unfold hinders at hhinders
  split at hhinders
  · rename_i c centre arms hc hhog
    simp only [Bool.and_eq_true, decide_eq_true_eq] at hhinders
    obtain ⟨⟨⟨⟨hk, -⟩, -⟩, -⟩, hdep⟩ := hhinders
    -- The source is a rigid or balloon, so it is not the hedgehog.
    obtain rfl := h.eq_of_leadsTo hu hs hh .refl ((hl.dependsOn_iff h.grounded).1 hdep)
    rw [hc] at hhog
    rw [Option.some_inj.1 hhog] at hk
    exact hk rfl
  · cases hhinders

/-! ### Sources -/

theorem sourcesAmong_ne_nil (d : Decomposition) (r : Relation) (ms : List Merge) (id : ClusterId) :
    d.sourcesAmong r ms id ≠ [] := by
  induction ms generalizing id with
  | nil => simp [sourcesAmong]
  | cons m older ih =>
    rw [sourcesAmong]
    split
    · split
      · simp
      · assumption
    · exact ih id

/-- A source of a relation is a cluster that the cluster was computed from. -/
theorem leadsTo_of_mem_sourcesAmong {r : Relation} {ms : List Merge} {s : ClusterId}
    (hms : ∀ m ∈ ms, m ∈ d.merges.values) (h : s ∈ d.sourcesAmong r ms id) : d.LeadsTo s id := by
  induction ms generalizing id with
  | nil =>
    rw [sourcesAmong, List.mem_singleton] at h
    rw [h]
  | cons m older ih =>
    have holder := fun m' hm' => hms m' (List.mem_cons_of_mem _ hm')
    rw [sourcesAmong] at h
    split at h
    · rename_i hout
      split at h
      · rw [List.mem_singleton] at h
        rw [h]
      · obtain ⟨i, hi, hsi⟩ := List.mem_flatMap.1 h
        obtain ⟨k, hk⟩ := Registry.mem_values_iff.1 (hms m List.mem_cons_self)
        exact (ih holder hsi).tail ⟨k, m, hk, (List.mem_filter.1 hi).1, hout⟩
    · exact ih holder h

/-- What two clusters on the top level both imply they have from different clusters. -/
theorem Sound.not_agreeOnSources (h : d.Sound) (hu : d.Underived) {p q : Placed}
    (hp : d.OnTop p) (hq : d.OnTop q) (hne : p.id ≠ q.id) (hs : p.cluster.Shares q.cluster) :
    d.agreeOnSources p.id q.id = false := by
  obtain ⟨common, hcommon, hrel⟩ := hs
  obtain ⟨r, hr⟩ := List.exists_mem_of_ne_nil _ hrel
  have hsources : ∀ {id s}, s ∈ d.sources id r → d.LeadsTo s id := fun hs =>
    leadsTo_of_mem_sourcesAmong (fun m hm => List.mem_reverse.1 hm) hs
  obtain ⟨s, hsp⟩ := List.exists_mem_of_ne_nil _ (sourcesAmong_ne_nil d r d.mergesByYouth p.id)
  rw [← Bool.not_eq_true]
  intro hagree
  rw [agreeOnSources, hp.2, hq.2] at hagree
  simp only [hcommon, List.all_eq_true] at hagree
  have hsame := hagree r hr
  simp only [sameMembers, Bool.and_eq_true, List.all_eq_true, decide_eq_true_eq] at hsame
  exact hne (h.eq_of_leadsTo hu hp.1 hq.1 (hsources hsp) (hsources (hsame.1 s hsp)))

/-! ### What the rules lose -/

/-- What the cluster under a key is worth. -/
def worthAt (d : Decomposition) (id : ClusterId) : Nat := ((d.cluster? id).map Cluster.worth).getD 0

theorem OnTop.worthAt {p : Placed} (h : d.OnTop p) : d.worthAt p.id = p.cluster.worth := by
  rw [Decomposition.worthAt, h.2]
  rfl

/-- The plan merges the clusters under the given keys into something that is worth that much less.
If it loses anything, it is redundant, and two inputs share a relation. -/
structure Loses (d : Decomposition) (plan : Plan) (ids : List ClusterId) (loss : Nat) : Prop where
  nodup : ids.Nodup
  worth : total d.worthAt ids = plan.output.worth + loss
  redundant : plan.redundant = true ↔ 0 < loss
  shares : plan.redundant = true → ∃ p q, d.OnTop p ∧ d.OnTop q ∧ p.id ≠ q.id ∧
    (p.id, q.id) ∈ pairs ids ∧ p.cluster.Shares q.cluster

theorem eq_of_map_existing {ids ids' : List ClusterId}
    (h : ids'.map PlanInput.existing = ids.map .existing) : ids = ids' :=
  ((List.map_inj_right fun _ _ he => PlanInput.existing.inj he).1 h).symm

theorem exists_existing {ids : List ClusterId} {i : PlanInput}
    (h : plan.inputs = ids.map .existing) (hi : i ∈ plan.inputs) : ∃ id, i = .existing id := by
  rw [h] at hi
  obtain ⟨id, -, he⟩ := List.mem_map.1 hi
  exact ⟨id, he.symm⟩

/-- A merge of two clusters. -/
theorem loses_of_two {p q : Placed} {ids : List ClusterId} {loss : Nat} (hp : d.OnTop p)
    (hq : d.OnTop q) (hne : p.id ≠ q.id)
    (hin : [PlanInput.existing p.id, .existing q.id] = ids.map .existing)
    (hw : p.cluster.worth + q.cluster.worth = plan.output.worth + loss)
    (hr : plan.redundant = true ↔ 0 < loss)
    (hs : plan.redundant = true → p.cluster.Shares q.cluster) : d.Loses plan ids loss := by
  obtain rfl : ids = [p.id, q.id] := eq_of_map_existing hin
  refine ⟨by simp [hne], ?_, hr, fun hred => ⟨p, q, hp, hq, hne, by simp, hs hred⟩⟩
  rw [total_cons, total_cons, total_nil, hp.worthAt, hq.worthAt]
  exact hw

/-- A merge of three clusters that loses nothing. -/
theorem loses_of_three {p q t : Placed} {ids : List ClusterId} (hp : d.OnTop p) (hq : d.OnTop q)
    (ht : d.OnTop t) (hpq : p.id ≠ q.id) (hpt : p.id ≠ t.id) (hqt : q.id ≠ t.id)
    (hin : [PlanInput.existing p.id, .existing q.id, .existing t.id] = ids.map .existing)
    (hw : p.cluster.worth + q.cluster.worth + t.cluster.worth = plan.output.worth)
    (hr : plan.redundant = false) : d.Loses plan ids 0 := by
  obtain rfl : ids = [p.id, q.id, t.id] := eq_of_map_existing hin
  refine ⟨by simp [hpq, hpt, hqt], ?_, by simp [hr], fun hred => ?_⟩
  · rw [total_cons, total_cons, total_cons, total_nil, hp.worthAt, hq.worthAt, ht.worthAt]
    omega
  · rw [hr] at hred
    cases hred

/-! #### Sizes -/

theorem size_union_add_shared (c e : Cluster) :
    (c.points ∪ e.points).size + (c.shared e).size = c.points.size + e.points.size :=
  NameSet.size_union_add_size_inter c.points e.points

theorem size_shared_le (c e : Cluster) :
    (c.shared e).size ≤ c.points.size ∧ (c.shared e).size ≤ e.points.size :=
  ⟨NameSet.size_le_of_subset fun _ hv => (Cluster.mem_shared.1 hv).1,
    NameSet.size_le_of_subset fun _ hv => (Cluster.mem_shared.1 hv).2⟩

theorem size_of_only? {s : NameSet} {v : PointName} (h : s.only? = some v) : s.size = 1 := by
  have hmem := NameSet.only?_eq_some.1 h
  have hle : s.size ≤ 1 := NameSet.size_le_of_mem_imp (l := [v]) fun b hb =>
    List.mem_singleton.2 ((hmem b).1 hb)
  have hpos : 0 < s.size := NameSet.size_pos_iff.2 ⟨v, (hmem v).2 rfl⟩
  omega

theorem size_pair {v w : PointName} (h : v ≠ w) : (NameSet.ofList [v, w]).size = 2 := by
  have hle : (NameSet.ofList [v, w]).size ≤ 2 :=
    NameSet.size_le_of_mem_imp (l := [v, w]) fun b hb => NameSet.mem_ofList.1 hb
  have hge : 2 ≤ (NameSet.ofList [v, w]).size :=
    NameSet.two_le_size_iff.2 ⟨v, w, by simp, by simp, h⟩
  omega

theorem worth_of_isRigid {c : Cluster} (h : c.isRigid = true) :
    c.worth = 2 * c.points.size - 3 := by
  obtain ⟨p, rfl⟩ := Cluster.kind_eq_rigid_iff.1 (Cluster.isRigid_iff.1 h)
  rfl

theorem worth_of_balloon {c : Cluster} (h : c.kind = .balloon) :
    c.worth = 2 * c.points.size - 4 := by
  obtain ⟨p, rfl⟩ := Cluster.kind_eq_balloon_iff.1 h
  rfl

/-! #### Rule by rule -/

theorem Grounded.absorb_loses (hg : d.Grounded) {cover hog : Placed} {ids : List ClusterId}
    (hc : d.OnTop cover) (hh : d.OnTop hog) (h : d.absorb? cover hog = some plan)
    (hin : plan.inputs = ids.map .existing) : ∃ loss, d.Loses plan ids loss := by
  obtain ⟨hk, hck, hsub, -, rfl⟩ := absorb?_eq_some h
  obtain ⟨g, rfl⟩ := OnTop.exists_hedgehog hk
  obtain ⟨-, h2⟩ := Cluster.valid_hedgehog_iff.1 (hg.valid _ _ hh.2)
  have hne : cover.id ≠ g.placed.id := hc.id_ne_of_kind hh (by rwa [hk])
  have hpos : 0 < g.placed.cluster.worth := by
    show 0 < g.arms.size - 1
    omega
  -- The hedgehog is lost as a whole, and it is worth something.
  refine ⟨_, loses_of_two hc hh hne hin rfl (iff_of_true rfl hpos) fun _ => ?_⟩
  have hcentre : g.centre ∈ cover.cluster := hsub _ (Cluster.mem_hedgehog.2 (.inl rfl))
  have harms : (g.arms.filter fun v => v ∈ cover.cluster) = g.arms := by
    refine NameSet.ext_mem fun v => ?_
    rw [NameSet.mem_filter, decide_eq_true_eq]
    exact and_iff_left_of_imp fun hv => hsub v (Cluster.mem_hedgehog.2 (.inr hv))
  refine ⟨.hedgehog g.centre g.arms, ?_, Cluster.relations_hedgehog_ne_nil h2⟩
  have hwithin : Cluster.hedgehogWithin g.centre g.arms cover.cluster =
      some (.hedgehog g.centre g.arms) := by
    rw [Cluster.hedgehogWithin, if_pos hcentre, harms, Cluster.hedgehogOn, if_pos h2]
  rw [← hwithin]
  cases hcl : cover.cluster with
  | rigid p => rfl
  | hedgehog centre arms => exact absurd (by rw [hcl]; rfl) hck
  | balloon p => rfl

theorem Grounded.balloonRigid_loses (hg : d.Grounded) {balloon rigid : Placed}
    {ids : List ClusterId} (hb : d.OnTop balloon) (hr : d.OnTop rigid)
    (h : balloonRigid? balloon rigid = some plan) (hin : plan.inputs = ids.map .existing) :
    ∃ loss, d.Loses plan ids loss := by
  obtain ⟨hbk, hrr, h2, rfl⟩ := balloonRigid?_eq_some h
  have hne : balloon.id ≠ rigid.id := by
    refine hb.id_ne_of_kind hr ?_
    rw [hbk, Cluster.isRigid_iff.1 hrr]
    decide
  have hvalid := hg.valid _ _ hb.2
  obtain ⟨p, hp⟩ := Cluster.kind_eq_balloon_iff.1 hbk
  obtain ⟨q, hq⟩ := Cluster.kind_eq_rigid_iff.1 (Cluster.isRigid_iff.1 hrr)
  -- The loss is counted from the sizes: what the two share counts twice in the inputs.
  have hunion := size_union_add_shared balloon.cluster rigid.cluster
  obtain ⟨-, hle⟩ := size_shared_le balloon.cluster rigid.cluster
  rw [hp] at hvalid
  have h3 : 3 ≤ p.size := Cluster.valid_balloon_iff.1 hvalid
  rw [hp, hq] at hunion hle h2
  refine ⟨2 * (balloon.cluster.shared rigid.cluster).size - 4,
    loses_of_two hb hr hne hin ?_ ?_ fun hred => ?_⟩
  · rw [hp, hq]
    show 2 * p.size - 4 + (2 * q.size - 3) = 2 * (p ∪ q).size - 3 + _
    simp only [Cluster.points] at hunion hle
    omega
  · rw [decide_eq_true_iff]
    omega
  · rw [decide_eq_true_iff] at hred
    rw [hp, hq] at hred ⊢
    exact ⟨_, if_pos hred, Cluster.relations_balloon_ne_nil hred⟩

theorem rigidRigid_loses {me other : Placed} {ids : List ClusterId} (hm : d.OnTop me)
    (ho : d.OnTop other) (hne : other.id ≠ me.id) (hr : me.cluster.isRigid = true)
    (h : d.rigidRigid? me other = some plan) (hin : plan.inputs = ids.map .existing) :
    ∃ loss, d.Loses plan ids loss := by
  obtain ⟨hor, h2, rfl⟩ := rigidRigid?_eq_some h
  have hunion := size_union_add_shared me.cluster other.cluster
  obtain ⟨hle, hle'⟩ := size_shared_le me.cluster other.cluster
  refine ⟨2 * (me.cluster.shared other.cluster).size - 3,
    loses_of_two hm ho hne.symm hin ?_ (iff_of_true rfl (by omega)) fun _ => ?_⟩
  · rw [worth_of_isRigid hr, worth_of_isRigid hor]
    show _ = 2 * (me.cluster.points ∪ other.cluster.points).size - 3 + _
    omega
  · obtain ⟨p, hp⟩ := Cluster.kind_eq_rigid_iff.1 (Cluster.isRigid_iff.1 hr)
    obtain ⟨q, hq⟩ := Cluster.kind_eq_rigid_iff.1 (Cluster.isRigid_iff.1 hor)
    rw [hp, hq] at h2 ⊢
    exact ⟨_, if_pos h2, Cluster.relations_rigid_ne_nil h2⟩

theorem balloons_loses {me other : Placed} {ids : List ClusterId}
    (hm : d.OnTop me) (ho : d.OnTop other) (hne : other.id ≠ me.id)
    (hb : me.cluster.kind = .balloon) (h : balloons? me other = some plan)
    (hin : plan.inputs = ids.map .existing) : ∃ loss, d.Loses plan ids loss := by
  obtain ⟨hob, h2, rfl⟩ := balloons?_eq_some h
  have hunion := size_union_add_shared me.cluster other.cluster
  obtain ⟨hle, hle'⟩ := size_shared_le me.cluster other.cluster
  refine ⟨2 * (me.cluster.shared other.cluster).size - 4,
    loses_of_two hm ho hne.symm hin ?_ ?_ fun hred => ?_⟩
  · rw [worth_of_balloon hb, worth_of_balloon hob]
    show _ = 2 * (me.cluster.points ∪ other.cluster.points).size - 4 + _
    omega
  · rw [decide_eq_true_iff]
    omega
  · obtain ⟨p, hp⟩ := Cluster.kind_eq_balloon_iff.1 hb
    obtain ⟨q, hq⟩ := Cluster.kind_eq_balloon_iff.1 hob
    rw [decide_eq_true_iff] at hred
    rw [hp, hq] at hred ⊢
    exact ⟨_, if_pos hred, Cluster.relations_balloon_ne_nil hred⟩

/-- A lone point is worth nothing. -/
theorem joinPoint_loses {rigid point : Placed} {ids : List ClusterId} (hr : d.OnTop rigid)
    (hp : d.OnTop point) (hne : rigid.id ≠ point.id) (hpr : point.cluster.isRigid = true)
    (hone : point.cluster.size = 1) (hin : (d.joinPoint rigid point).inputs = ids.map .existing) :
    d.Loses (d.joinPoint rigid point) ids 0 := by
  have hlone : point.cluster.worth = 0 := by
    rw [worth_of_isRigid hpr, ← Cluster.size_of_isRigid hpr, hone]
  refine loses_of_two hr hp hne hin ?_ (by simp [joinPoint]) fun hred => by cases hred
  rw [hlone]
  rfl

theorem hedgehogs_loses {me : PlacedHedgehog} {other : Placed} {ids : List ClusterId}
    (hm : d.OnTop me.placed) (ho : d.OnTop other) (hne : other.id ≠ me.id)
    (h : hedgehogs? me other = some plan) (hin : plan.inputs = ids.map .existing) :
    ∃ loss, d.Loses plan ids loss := by
  obtain ⟨arms, v, hc, hv, hv', rfl⟩ := hedgehogs?_eq_some h
  -- Around one centre the shared arms count twice, but one of them is what joins the two.
  have hunion := NameSet.size_union_add_size_inter me.arms arms
  have hpos : 0 < (me.arms ∩ arms).size :=
    NameSet.size_pos_iff.2 ⟨v, NameSet.mem_inter.2 ⟨hv, hv'⟩⟩
  have hle : (me.arms ∩ arms).size ≤ arms.size :=
    NameSet.size_le_of_subset fun w hw => (NameSet.mem_inter.1 hw).2
  have hle' : (me.arms ∩ arms).size ≤ me.arms.size :=
    NameSet.size_le_of_subset fun w hw => (NameSet.mem_inter.1 hw).1
  refine ⟨(me.arms ∩ arms).size - 1, loses_of_two hm ho hne.symm hin ?_ ?_ fun hred => ?_⟩
  · rw [hc]
    show me.arms.size - 1 + (arms.size - 1) = (me.arms ∪ arms).size - 1 + _
    omega
  · show decide (2 ≤ (me.arms ∩ arms).size) = true ↔ _
    rw [decide_eq_true_iff]
    omega
  · have h2 : 2 ≤ (me.arms ∩ arms).size := of_decide_eq_true hred
    refine ⟨.hedgehog me.centre (me.arms ∩ arms), ?_, Cluster.relations_hedgehog_ne_nil h2⟩
    rw [hc]
    show (if me.centre = me.centre then Cluster.hedgehogOn me.centre (me.arms ∩ arms) else none) = _
    rw [if_pos rfl, Cluster.hedgehogOn, if_pos h2]

theorem threeRigids_loses {me first second : Placed} {ids : List ClusterId} (hm : d.OnTop me)
    (h₁ : d.OnTop first) (h₂ : d.OnTop second) (hne₁ : first.id ≠ me.id)
    (hne₂ : second.id ≠ me.id) (hr : me.cluster.isRigid = true)
    (h : d.threeRigids? me first second = some plan) (hin : plan.inputs = ids.map .existing) :
    d.Loses plan ids 0 := by
  obtain ⟨hr₁, hr₂, hne, p, q, r, hp, hq, hrr, hpq, hqr, hrp, rfl⟩ := threeRigids?_eq_some h
  obtain ⟨⟨hpm, hpf⟩, -⟩ := only?_shared hp
  obtain ⟨⟨hqf, hqs⟩, hqonly⟩ := only?_shared hq
  obtain ⟨⟨hrs, hrm⟩, hronly⟩ := only?_shared hrr
  -- The third rigid shares with the first two together just its two corners.
  have hcorners : (me.cluster.points ∪ first.cluster.points) ∩ second.cluster.points =
      NameSet.ofList [q, r] := by
    refine NameSet.ext_mem fun v => ?_
    simp only [NameSet.mem_inter, NameSet.mem_union, Cluster.mem_points, NameSet.mem_ofList,
      List.mem_cons, List.not_mem_nil, or_false]
    constructor
    · rintro ⟨hv | hv, hvs⟩
      · exact .inr (hronly v hvs hv)
      · exact .inl (hqonly v hv hvs)
    · rintro (rfl | rfl)
      · exact ⟨.inr hqf, hqs⟩
      · exact ⟨.inl hrm, hrs⟩
  have hsize₁ := size_union_add_shared me.cluster first.cluster
  have hsize₂ := NameSet.size_union_add_size_inter (me.cluster.points ∪ first.cluster.points)
    second.cluster.points
  rw [size_of_only? hp] at hsize₁
  rw [hcorners, size_pair hqr] at hsize₂
  have hm2 : 2 ≤ me.cluster.points.size := NameSet.two_le_size_iff.2 ⟨p, r, hpm, hrm, hrp.symm⟩
  have hf2 : 2 ≤ first.cluster.points.size := NameSet.two_le_size_iff.2 ⟨p, q, hpf, hqf, hpq⟩
  have hs2 : 2 ≤ second.cluster.points.size := NameSet.two_le_size_iff.2 ⟨q, r, hqs, hrs, hqr⟩
  refine loses_of_three hm h₁ h₂ hne₁.symm hne₂.symm hne.symm hin ?_ rfl
  rw [worth_of_isRigid hr, worth_of_isRigid hr₁, worth_of_isRigid hr₂]
  show _ = 2 * (me.cluster.points ∪ first.cluster.points ∪ second.cluster.points).size - 3
  omega

theorem eq_of_withArms {h : PlacedHedgehog} {arms : NameSet} (he : withArms h arms = .existing id) :
    h.arms = arms ∧ id = h.id := by
  unfold withArms at he
  split at he
  · rename_i harms
    exact ⟨harms, (PlanInput.existing.inj he).symm⟩
  · cases he

/-- Two rigids that share one point are joined by an angle. -/
theorem joinByAngle_loses {r n : Placed} {h : PlacedHedgehog} {v w b : PointName} {rule : MergeRule}
    {data : TriangleData} {qs : List SelectionConstraint} {ids : List ClusterId} (hr : d.OnTop r)
    (hn : d.OnTop n) (hh : d.OnTop h.placed) (hne : n.id ≠ r.id) (hrr : r.cluster.isRigid = true)
    (hnr : n.cluster.isRigid = true) (hb : (r.cluster.shared n.cluster).only? = some b)
    (hr2 : 2 ≤ r.cluster.points.size) (hn2 : 2 ≤ n.cluster.points.size) (hvw : v ≠ w)
    (hin : (d.joinByAngle rule r n (withArms h (.ofList [v, w])) data qs).inputs =
      ids.map .existing) :
    d.Loses (d.joinByAngle rule r n (withArms h (.ofList [v, w])) data qs) ids 0 := by
  obtain ⟨i, hi⟩ := exists_existing hin (i := withArms h (.ofList [v, w])) (by simp [joinByAngle])
  -- A hedgehog that is used as it stands has just the two arms.
  obtain ⟨harms, rfl⟩ := eq_of_withArms hi
  have hkind : ∀ {p : Placed}, d.OnTop p → p.cluster.isRigid = true → p.id ≠ h.placed.id := by
    intro p hp hpr
    refine hp.id_ne_of_kind hh ?_
    rw [Cluster.isRigid_iff.1 hpr]
    simp [PlacedHedgehog.placed, Cluster.kind]
  have hunion := size_union_add_shared r.cluster n.cluster
  rw [size_of_only? hb] at hunion
  refine loses_of_three hr hn hh hne.symm (hkind hr hrr) (hkind hn hnr) ?_ ?_ rfl
  · rw [← hin, joinByAngle, hi]
    rfl
  · rw [worth_of_isRigid hrr, worth_of_isRigid hnr]
    show _ + (h.arms.size - 1) = 2 * (r.cluster.points ∪ n.cluster.points).size - 3
    rw [harms, size_pair hvw]
    omega

theorem Grounded.triangle_loses (hg : d.Grounded) {me other : PlacedHedgehog} {c : PointName}
    {ids : List ClusterId} (hm : d.OnTop me.placed) (ho : d.OnTop other.placed)
    (hb : other.centre ∈ me.arms) (hc : c ∈ me.arms ∩ other.arms)
    (h : d.triangleOver? me other c = some plan) (hin : plan.inputs = ids.map .existing) :
    d.Loses plan ids 0 := by
  obtain ⟨-, rfl⟩ := triangleOver?_eq_some h
  obtain ⟨hcm, hco⟩ := NameSet.mem_inter.1 hc
  have hmc := (Cluster.valid_hedgehog_iff.1 (hg.valid _ _ hm.2)).1
  have hoc := (Cluster.valid_hedgehog_iff.1 (hg.valid _ _ ho.2)).1
  -- The three corners are different, since no centre is among its own arms.
  have hmo : me.centre ≠ other.centre := fun e => hmc (e ▸ hb)
  have hmv : me.centre ≠ c := fun e => hmc (e ▸ hcm)
  have hov : other.centre ≠ c := fun e => hoc (e ▸ hco)
  have hne : me.placed.id ≠ other.placed.id := by
    intro he
    have heq := congrArg Placed.cluster (hm.eq_of_id ho he)
    exact hmo (Cluster.hedgehog.inj heq).1
  obtain ⟨i, hi⟩ := exists_existing hin List.mem_cons_self
  obtain ⟨j, hj⟩ := exists_existing hin (List.mem_cons_of_mem _ List.mem_cons_self)
  -- Both hedgehogs are used as they stand, so each has two arms.
  obtain ⟨hme, rfl⟩ := eq_of_withArms hi
  obtain ⟨hother, rfl⟩ := eq_of_withArms hj
  refine loses_of_two hm ho hne ?_ ?_ (by simp) fun hred => by cases hred
  · rw [← hin, hi, hj]
    rfl
  · have hle : (NameSet.ofList [me.centre, other.centre, c]).size ≤ 3 :=
      NameSet.size_le_of_mem_imp (l := [me.centre, other.centre, c]) fun b hb =>
        NameSet.mem_ofList.1 hb
    have hge : 3 ≤ (NameSet.ofList [me.centre, other.centre, c]).size :=
      NameSet.three_le_size (by simp) (by simp) (by simp) hmo hmv hov
    show me.arms.size - 1 + (other.arms.size - 1) =
      2 * (NameSet.ofList [me.centre, other.centre, c]).size - 4 + 0
    rw [hme, hother, size_pair hov, size_pair hmv]
    omega

/-- A rule that derives nothing loses something if and only if it is redundant. -/
theorem Finding.loses {ps ids : List ClusterId} (hg : d.Grounded) (h : Finding d ps plan)
    (hin : plan.inputs = ids.map .existing) : ∃ loss, d.Loses plan ids loss := by
  have htwo : ∀ {c : Cluster} {v w : PointName}, v ∈ c → w ∈ c → v ≠ w → 2 ≤ c.points.size :=
    fun hv hw hvw => NameSet.two_le_size_iff.2 ⟨_, _, hv, hw, hvw⟩
  -- A rule loses something if its inputs share more than it takes to join them.
  cases h with
  | absorb hc hh h => exact hg.absorb_loses hc hh h hin
  | balloonRigid hb hr h => exact hg.balloonRigid_loses hb hr h hin
  | pointRigid hm ho hne hr _ h =>
    obtain ⟨hor, ⟨hone, rfl⟩ | ⟨-, hone, rfl⟩⟩ := pointRigid?_eq_some h
    · exact ⟨0, joinPoint_loses ho hm hne hr hone hin⟩
    · exact ⟨0, joinPoint_loses hm ho hne.symm hor hone hin⟩
  | rigidRigid hm ho hne hr h => exact rigidRigid_loses hm ho hne hr h hin
  | balloons hm ho hne hb h => exact balloons_loses hm ho hne hb h hin
  | hedgehogs hm ho hne h => exact hedgehogs_loses hm ho hne h hin
  | threeRigids hm h₁ h₂ hne₁ hne₂ hr h =>
    exact ⟨0, threeRigids_loses hm h₁ h₂ hne₁ hne₂ hr h hin⟩
  | angleBetween hr hn hh hne hrr hnr hb _ ha hc =>
    -- The angle is between the arms: each rigid has one arm that the other has not.
    obtain ⟨-, har, han⟩ := armTo?_eq_some ha
    obtain ⟨-, hcn, hcr⟩ := armTo?_eq_some hc
    obtain ⟨⟨hbr, hbn⟩, -⟩ := only?_shared hb
    exact ⟨0, joinByAngle_loses hr hn hh hne hrr hnr hb (htwo har hbr fun e => han (e ▸ hbn))
      (htwo hcn hbn fun e => hcr (e ▸ hbr)) (fun e => han (e ▸ hcn)) hin⟩
  | angleBeside hr hn hh hne hrr hnr hb hsides hcentre hcb _ hc =>
    obtain ⟨-, hcf, hcn⟩ := armTo?_eq_some hc
    obtain ⟨⟨hbr, hbn⟩, -⟩ := only?_shared hb
    -- The centre is in one of the two rigids, so the angle is beside the point that they share.
    rcases hsides with ⟨rfl, rfl, -, -⟩ | ⟨rfl, rfl, -, -⟩
    · exact ⟨0, joinByAngle_loses hr hn hh hne hrr hnr hb (htwo hcentre hbr hcb)
        (htwo hcf hbn fun e => hcn (e ▸ hbr)) (fun e => hcn (e ▸ hbr)) hin⟩
    · exact ⟨0, joinByAngle_loses hr hn hh hne hrr hnr hb (htwo hcf hbr fun e => hcn (e ▸ hbn))
        (htwo hcentre hbn hcb) (fun e => hcn (e ▸ hbn)) hin⟩
  | extend hs hh hk hc h =>
    obtain ⟨-, -, -, -, rfl⟩ := extendHedgehog?_eq_some h
    -- This rule always derives, which is excluded.
    obtain ⟨i, hi⟩ := exists_existing hin (List.mem_cons_of_mem _ List.mem_cons_self)
    cases hi
  | triangle hm ho hb _ hc h => exact ⟨0, hg.triangle_loses hm ho hb hc h hin⟩

/-! ### Carrying out a plan that derives nothing -/

theorem provideAll_existing (d : Decomposition) (ids : List ClusterId) :
    d.provideAll (ids.map .existing) = (ids, d) := by
  induction ids with
  | nil => rfl
  | cons id rest ih =>
    rw [List.map_cons, provideAll_cons]
    show (id :: (d.provideAll (rest.map .existing)).1, (d.provideAll (rest.map .existing)).2) = _
    rw [ih]

/-- Without a derived hedgehog all inputs existed before. -/
theorem exists_ids_of_provideAll {inputs : List PlanInput}
    (h : (d.provideAll inputs).2.Underived) :
    ∃ ids : List ClusterId, inputs = ids.map .existing := by
  induction inputs generalizing d with
  | nil => exact ⟨[], rfl⟩
  | cons i rest ih =>
    rw [provideAll_cons] at h
    obtain ⟨ids, rfl⟩ := ih h
    cases i with
    | existing id => exact ⟨id :: ids, rfl⟩
    | derived source centre arms =>
      have hd := h.mono (partOf_provideAll (ids.map .existing) _).merges
      exact absurd rfl (hd _ (Registry.mem_values_iff.2 ⟨_, find?_addMerge.2 (.inr ⟨rfl, rfl⟩)⟩))

theorem Underived.exists_ids (h : (d.carryOut plan).2.Underived) :
    ∃ ids : List ClusterId, plan.inputs = ids.map .existing :=
  exists_ids_of_provideAll (h.mono (partOf_addMerge _ _).merges)

theorem carryOut_of_existing {ids : List ClusterId} (h : plan.inputs = ids.map .existing) :
    d.carryOut plan = d.addMerge (plan.draft ids) := by
  rw [carryOut_eq, h, provideAll_existing]

/-! ### The account of the top level -/

/-- Some cluster on the top level is marked as overconstrained. -/
def Overconstrained (d : Decomposition) : Prop := ∃ t ∈ d.topLevel, d.isOverconstrained t = true

instance (d : Decomposition) : Decidable d.Overconstrained :=
  inferInstanceAs (Decidable (∃ t ∈ d.topLevel.toList, d.isOverconstrained t = true))

/-- The top level is worth at most `w`, and it is worth less if and only if something on it is
overconstrained. -/
structure Accounted (d : Decomposition) (w : Nat) : Prop where
  worth_le : total d.worthAt d.topLevel.toList ≤ w
  overconstrained : d.Overconstrained ↔ total d.worthAt d.topLevel.toList < w

theorem Accounted.congr {w : Nat} (h : d.Accounted w) (hc : d'.clusters = d.clusters)
    (ht : d'.topLevel = d.topLevel) : d'.Accounted w := by
  have hw : d'.worthAt = d.worthAt := by
    funext id
    unfold worthAt cluster?
    rw [hc]
  have ho : d'.isOverconstrained = d.isOverconstrained := by
    funext id
    unfold isOverconstrained
    rw [hc]
  obtain ⟨h₁, h₂⟩ := h
  constructor
  · rwa [hw, ht]
  · unfold Overconstrained at h₂ ⊢
    rwa [hw, ho, ht]

theorem PartOf.worthAt_eq (h : d.PartOf d') (hl : d.Live id) : d'.worthAt id = d.worthAt id := by
  obtain ⟨n, hn⟩ := Registry.mem_keys_iff.1 hl
  unfold worthAt cluster?
  rw [hn, h.clusters id n hn]

theorem PartOf.isOverconstrained_eq (h : d.PartOf d') (hl : d.Live id) :
    d'.isOverconstrained id = d.isOverconstrained id := by
  obtain ⟨n, hn⟩ := Registry.mem_keys_iff.1 hl
  unfold isOverconstrained
  rw [hn, h.clusters id n hn]

/-- A new cluster adds what it is worth. -/
theorem Accounted.receive {w : Nat} (h : d.Accounted w) (hg : d.Grounded) (c : Cluster) :
    (d.receive c).2.Accounted (w + c.worth) := by
  have hp := partOf_receive d c
  -- The top level grows by the new cluster, which bears no flag.
  have hnew : d.clusters.nextKey ∉ d.topLevel := fun hid => not_live_nextKey (hg.top _ hid)
  have htop : (d.receive c).2.topLevel.toList = d.topLevel.toList ++ [d.clusters.nextKey] :=
    OrderedSet.toList_insert_of_not_mem hnew
  have hfind : (d.receive c).2.clusters.find? d.clusters.nextKey = some ⟨c, false, false⟩ := by
    show (d.clusters.insert _).find? d.clusters.nextKey = _
    rw [Registry.find?_insert, if_pos rfl]
  have hworth : (d.receive c).2.worthAt d.clusters.nextKey = c.worth := by
    unfold worthAt cluster?
    rw [hfind]
    rfl
  have hflag : (d.receive c).2.isOverconstrained d.clusters.nextKey = false := by
    unfold isOverconstrained
    rw [hfind]
    rfl
  have hold : total (d.receive c).2.worthAt d.topLevel.toList = total d.worthAt d.topLevel.toList :=
    total_congr fun id hid => hp.worthAt_eq (hg.top id hid)
  have htotal : total (d.receive c).2.worthAt (d.receive c).2.topLevel.toList =
      total d.worthAt d.topLevel.toList + c.worth := by
    rw [htop, total_append, total_cons, total_nil, hworth, hold]
    omega
  have hover : (d.receive c).2.Overconstrained ↔ d.Overconstrained := by
    constructor
    · rintro ⟨t, ht, hmark⟩
      rcases OrderedSet.mem_insert.1 ht with rfl | ht
      · rw [hflag] at hmark
        cases hmark
      · exact ⟨t, ht, by rwa [← hp.isOverconstrained_eq (hg.top t ht)]⟩
    · rintro ⟨t, ht, hmark⟩
      exact ⟨t, OrderedSet.mem_insert.2 (.inr ht), by rwa [hp.isOverconstrained_eq (hg.top t ht)]⟩
  obtain ⟨h₁, h₂⟩ := h
  constructor
  · omega
  · rw [hover, h₂, htotal]
    omega

/-- The top level after a merge of the clusters `ids` is worth what it loses less. -/
theorem Carried.worth {ids : List ClusterId} {out : ClusterId} {loss : Nat}
    (hc : d.Carried plan out d') (hg : d.Grounded) (hp : d.PartOf d') (hl : d.Loses plan ids loss)
    (hin : plan.inputs = ids.map .existing) (htop : ∀ id ∈ ids, id ∈ d.topLevel) :
    total d'.worthAt d'.topLevel.toList + loss = total d.worthAt d.topLevel.toList := by
  have hmem : ∀ id, .existing id ∈ plan.inputs ↔ id ∈ ids := by
    intro id
    rw [hin]
    simp
  have hrest : d'.topLevel.toList = d.topLevel.toList.filter (fun id => !decide (id ∈ ids)) ++
      [out] := by
    rw [hc.topLevel]
    simp only [hmem, decide_not]
  -- The inputs leave the top level and the output joins it.
  have hgone : total d.worthAt (d.topLevel.toList.filter fun id => decide (id ∈ ids)) =
      total d.worthAt ids := by
    refine total_perm ((List.perm_ext_iff_of_nodup (d.topLevel.nodup.filter _) hl.nodup).2 ?_)
    intro id
    rw [List.mem_filter, decide_eq_true_eq]
    exact and_iff_right_of_imp fun hid => htop id hid
  have hsplit := total_filter d.worthAt (fun id => decide (id ∈ ids)) d.topLevel.toList
  have hout : d'.worthAt out = plan.output.worth := by
    unfold worthAt
    rw [hc.output]
    rfl
  have hold : total d'.worthAt (d.topLevel.toList.filter fun id => !decide (id ∈ ids)) =
      total d.worthAt (d.topLevel.toList.filter fun id => !decide (id ∈ ids)) :=
    total_congr fun id hid => hp.worthAt_eq (hg.top id (List.mem_filter.1 hid).1)
  have hworth := hl.worth
  rw [hrest, total_append, total_cons, total_nil, hout, hold]
  omega

/-- A merge is overconstrained if and only if it loses something. -/
theorem Sound.overconstrained_mergeFor {ids : List ClusterId} {loss : Nat} (h : d.Sound)
    (hu : d.Underived) (hl : d.Loses plan ids loss) :
    (d.mergeFor (plan.draft ids)).overconstrained = true ↔ 0 < loss := by
  rw [← hl.redundant]
  show (plan.redundant && !d.consistentInputs ids) = true ↔ _
  rw [Bool.and_eq_true, and_iff_left_iff_imp]
  intro hred
  obtain ⟨p, q, hp, hq, hne, hpair, hshare⟩ := hl.shares hred
  have hno := h.not_agreeOnSources hu hp hq hne hshare
  rw [Bool.not_eq_true', consistentInputs, List.all_eq_false]
  exact ⟨_, hpair, by rw [hno]; simp⟩

/-- A merge leaves something overconstrained if and only if there was something before or the merge
itself is. -/
theorem overconstrained_addMerge {ids : List ClusterId} (hg : d.Grounded)
    (htop : ∀ id ∈ ids, id ∈ d.topLevel) : (d.addMerge (plan.draft ids)).2.Overconstrained ↔
      (d.mergeFor (plan.draft ids)).overconstrained = true ∨ d.Overconstrained := by
  have hp := partOf_addMerge d (plan.draft ids)
  have hflag : (d.addMerge (plan.draft ids)).2.isOverconstrained d.clusters.nextKey =
      ((d.mergeFor (plan.draft ids)).overconstrained || ids.any d.isOverconstrained) := by
    show (((d.clusters.insert _).find? d.clusters.nextKey).map _).getD false = _
    rw [Registry.find?_insert, if_pos rfl]
    rfl
  have hnew : d.clusters.nextKey ∉ ids := fun hid => not_live_nextKey (hg.top _ (htop _ hid))
  have hout : d.clusters.nextKey ∈ (d.addMerge (plan.draft ids)).2.topLevel :=
    mem_topLevel_addMerge.2 ⟨.inl rfl, hnew⟩
  constructor
  · rintro ⟨t, ht, hmark⟩
    obtain ⟨rfl | ht, -⟩ := mem_topLevel_addMerge.1 ht
    · rw [hflag, Bool.or_eq_true, List.any_eq_true] at hmark
      exact hmark.imp_right fun ⟨i, hi, him⟩ => ⟨i, htop i hi, him⟩
    · exact .inr ⟨t, ht, by rwa [← hp.isOverconstrained_eq (hg.top t ht)]⟩
  · rintro (hmerge | ⟨t, ht, hmark⟩)
    · exact ⟨_, hout, by rw [hflag, hmerge, Bool.true_or]⟩
    · by_cases hid : t ∈ ids
      · -- A consumed cluster passes its mark on to the output.
        refine ⟨_, hout, ?_⟩
        rw [hflag, List.any_eq_true.2 ⟨t, hid, hmark⟩, Bool.or_true]
      · refine ⟨t, mem_topLevel_addMerge.2 ⟨.inr ht, hid⟩, ?_⟩
        rwa [hp.isOverconstrained_eq (hg.top t ht)]

/-- The search keeps the account as long as it derives nothing. -/
theorem Accounted.carryOut {w : Nat} {ps : List ClusterId} (h : d.Accounted w) (hd : d.Sound)
    (hu : (d.carryOut plan).2.Underived) (hf : Finding d ps plan) :
    (d.carryOut plan).2.Accounted w := by
  have hp := partOf_carryOut d plan
  have hcar := hd.carryOut (hf.sound hd.grounded)
  -- Nothing is derived, so all inputs were on the top level before.
  obtain ⟨ids, hin⟩ := hu.exists_ids
  obtain ⟨loss, hl⟩ := hf.loses hd.grounded hin
  have htop : ∀ id ∈ ids, id ∈ d.topLevel := by
    intro id hid
    obtain ⟨c, hc, -⟩ := (hf.sound hd.grounded).weaker (.existing id) (by rw [hin]; simp [hid])
    exact hc.source_mem
  have hworth := hcar.worth hd.grounded hp hl hin htop
  have hover : (d.addMerge (plan.draft ids)).2.Overconstrained ↔ _ :=
    overconstrained_addMerge hd.grounded htop
  -- A flag appears if and only if something is lost.
  rw [← carryOut_of_existing hin, hd.overconstrained_mergeFor (hu.mono hp.merges) hl,
    h.overconstrained] at hover
  have hle := h.worth_le
  constructor
  · omega
  · rw [hover]
    omega

theorem Accounted.process {w : Nat} (hd : d.Sound) (h : d.Accounted w) (hu : d.process.Underived) :
    d.process.Accounted w := by
  refine (hd.process_of_search (P := fun x => x.Underived → x.Accounted w)
    (fun _ _ hx hu => (hx hu).congr rfl rfl) (fun x id plan hx hP htop hs hu => ?_)
    fun _ => h).2 hu
  obtain ⟨ps, hf⟩ := finding_of_search htop hs
  exact (hP (hu.mono (partOf_carryOut x plan).merges)).carryOut hx hu hf

theorem total_topClusters (d : Decomposition) :
    total Cluster.worth d.topClusters = total d.worthAt d.topLevel.toList := by
  unfold topClusters
  induction d.topLevel.toList with
  | nil => rfl
  | cons id rest ih =>
    rw [total_cons, ← ih]
    unfold worthAt
    cases hc : d.cluster? id with
    | none =>
      rw [List.filterMap_cons_none hc]
      exact (Nat.zero_add _).symm
    | some c =>
      rw [List.filterMap_cons_some hc]
      rfl

end Decomposition

namespace Solver

open Decomposition

/-! ### Adding clusters in any order -/

/-- If no hedgehog is derived while clusters are added, something on the top level is
overconstrained if and only if the top level is worth less than what was added. -/
theorem accounted_run_adds (config : SolverConfig) (cs : List Cluster)
    (hu : (run config (cs.map .add)).decomposition.Underived) :
    (run config (cs.map .add)).decomposition.Accounted
      (total Cluster.worth (cs.filter fun c => c.Valid)) := by
  refine run_adds_induction (P := fun cs d => d.Underived →
    d.Accounted (total Cluster.worth (cs.filter fun c => c.Valid))) config ?_ ?_ ?_ cs hu
  · exact fun _ => ⟨Nat.le_refl _, by decide⟩
  · intro cs c d hc ih hu
    rw [List.filter_append, List.filter_cons_of_neg (by simpa using hc), List.filter_nil,
      List.append_nil]
    exact ih hu
  · intro cs c d hd hc ih hu
    have hs := hd.sound.receive hc
    have hgrow : d.PartOf (d.receive c).2.process := (partOf_receive d c).trans hs.partOf_process
    have hbefore := (ih (hu.mono hgrow.merges)).receive hd.sound.grounded c
    rw [List.filter_append, List.filter_cons_of_pos (by simpa using hc), List.filter_nil,
      total_append, total_cons, total_nil, Nat.add_zero]
    exact (Accounted.process hs hbefore hu).congr rfl rfl

/-- If clusters are added in two orders and neither derives a hedgehog, something on the top level
is overconstrained in both or in neither, namely if the top level is worth less than what was
added. -/
theorem overconstrained_perm (config : SolverConfig) {cs cs' : List Cluster} (h : cs.Perm cs') :
    let d := (run config (cs.map .add)).decomposition
    let d' := (run config (cs'.map .add)).decomposition
    d.Underived → d'.Underived →
      (d.Overconstrained ↔ d'.Overconstrained) ∧ (d.Overconstrained ↔
        total Cluster.worth d.topClusters < total Cluster.worth (cs.filter fun c => c.Valid)) := by
  intro d d' hu hu'
  have hreach := reachable_run config (cs.map .add)
  have hreach' := reachable_run config (cs'.map .add)
  have hcount := (accounted_run_adds config cs hu).overconstrained
  have hcount' := (accounted_run_adds config cs' hu').overconstrained
  rw [← total_topClusters] at hcount hcount'
  have hperm : d.topClusters.Perm d'.topClusters :=
    (topClusters_perm config h (hreach'.sound.unhindered hreach'.lineage hu')).2.2
      (hreach.sound.unhindered hreach.lineage hu)
  refine ⟨hcount.trans (Iff.trans ?_ hcount'.symm), hcount⟩
  rw [total_perm hperm, total_perm (h.filter _)]

/-- A triangle and two of its sides, in either order: both find that the sides are redundant. -/
theorem overconstrained_perm_reverse :
    let cs : List Cluster := [.rigid (.ofList ["A", "B", "C"]), .rigid (.ofList ["A", "B"]),
      .hedgehog "D" (.ofList ["A", "B"]), .rigid (.ofList ["B", "C"])]
    let d := (run {} (cs.map .add)).decomposition
    let d' := (run {} (cs.reverse.map .add)).decomposition
    cs.Perm cs.reverse ∧ d.Underived ∧ d'.Underived ∧ d.Overconstrained ∧ d'.Overconstrained := by
  intro cs d d'
  have hperm : cs.Perm cs.reverse := (List.reverse_perm cs).symm
  have hu : d.Underived := by
    show (run {} (cs.map .add)).decomposition.Underived
    rw [decomposition_run_adds]
    decide +kernel
  have hu' : d'.Underived := by
    show (run {} (cs.reverse.map .add)).decomposition.Underived
    rw [decomposition_run_adds]
    decide +kernel
  have hover : d.Overconstrained := by
    show (run {} (cs.map .add)).decomposition.Overconstrained
    rw [decomposition_run_adds]
    decide +kernel
  exact ⟨hperm, hu, hu', hover, (overconstrained_perm {} hperm hu hu').1.1 hover⟩

/-- The order matters in general.  The triangle `a, c, d`, the distance `b, c` and the angle
`b, c, d` make a rigid of four points, and no relation is there twice.  If the angle comes before
the distance, it grows by the triangle first.  The grown hedgehog and the triangle fix the distance
`b, c` to the rest; from the rigid that results the angle `b, c, d` does not seem to come from the
hedgehog any more, and the hedgehog is taken for a second source of it. -/
theorem not_overconstrained_perm :
    ¬∀ (config : SolverConfig) (cs cs' : List Cluster), (∀ c ∈ cs, c.Valid) → cs.Perm cs' →
      ((run config (cs.map .add)).decomposition.Overconstrained ↔
        (run config (cs'.map .add)).decomposition.Overconstrained) := by
  intro h
  let triangle : Cluster := .rigid (.ofList ["a", "c", "d"])
  let distance : Cluster := .rigid (.ofList ["b", "c"])
  let angle : Cluster := .hedgehog "c" (.ofList ["b", "d"])
  have hiff := h {} [triangle, distance, angle] [triangle, angle, distance] (by decide) (by decide)
  rw [decomposition_run_adds, decomposition_run_adds] at hiff
  exact absurd (hiff.2 (by decide +kernel)) (by decide +kernel)

end Solver

end PlanarSketch
