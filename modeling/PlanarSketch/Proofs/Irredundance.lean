/-
On a saturated top level no cluster is weaker than another one.

Where a cluster is weaker than another, a rule joins the two.  There is one
exception: a rigid or balloon absorbs the hedgehogs inside it only if they were
not computed from it.  But such a hedgehog never comes about while clusters are
only added, since the searches try absorption first, so a hedgehog inside a
cluster is gone before it could grow.

* `topClusters`: the clusters on the top level;
* `Inside`, `Independent`: no hedgehog was computed from a cluster around it,
  which the search keeps (`Independent.process`);
* `Saturated.irredundant`: so no cluster on the top level is weaker than
  another one.
-/
import PlanarSketch.Proofs.Closure
import PlanarSketch.Proofs.Lineage
import PlanarSketch.Proofs.Saturation

namespace PlanarSketch

namespace Decomposition

variable {d d' : Decomposition} {id : ClusterId} {plan : Plan}

/-- The clusters on the top level. -/
def topClusters (d : Decomposition) : List Cluster := d.topLevel.toList.filterMap d.cluster?

theorem mem_topClusters {c : Cluster} : c ∈ d.topClusters ↔ ∃ id, d.OnTop ⟨id, c⟩ :=
  List.mem_filterMap

/-! ### Hedgehogs inside other clusters -/

/-- A top-level hedgehog has all its points in a top-level rigid or balloon. -/
structure Inside (d : Decomposition) (hog cover : Placed) : Prop where
  hog_onTop : d.OnTop hog
  cover_onTop : d.OnTop cover
  hog_kind : hog.cluster.kind = .hedgehog
  cover_kind : cover.cluster.kind ≠ .hedgehog
  points : ∀ v ∈ hog.cluster, v ∈ cover.cluster

/-- No hedgehog was computed from a cluster that it is inside. -/
def Independent (d : Decomposition) : Prop :=
  ∀ hog cover, d.Inside hog cover → ¬d.LeadsTo cover.id hog.id

theorem Independent.of_onTop (h : d.Independent) (hon : ∀ p, d'.OnTop p → d.OnTop p)
    (hlead : ∀ a b, d'.LeadsTo a b → d.LeadsTo a b) : d'.Independent := by
  rintro hog cover ⟨hh, hc, hhk, hck, hin⟩ hab
  exact h hog cover ⟨hon _ hh, hon _ hc, hhk, hck, hin⟩ (hlead _ _ hab)

/-- A hedgehog that cannot be absorbed by a cluster around it was computed from it. -/
theorem Inside.dependsOn {hog cover : Placed} (h : d.Inside hog cover)
    (hnone : d.absorb? cover hog = none) : d.dependsOn hog.id cover.id = true := by
  have hsub : hog.cluster.points ⊆ cover.cluster.points := h.points
  rw [← Bool.not_eq_false]
  intro hdep
  simp [absorb?, h.cover_kind, h.hog_kind, hsub, hdep] at hnone

theorem Inside.mem_neighbours {hog cover : Placed} (h : d.Inside hog cover) :
    hog ∈ d.neighbours cover ∧ cover ∈ d.neighbours hog := by
  obtain ⟨g, rfl⟩ := OnTop.exists_hedgehog h.hog_kind
  have hcentre : g.centre ∈ g.placed.cluster := Cluster.mem_hedgehog.2 (.inl rfl)
  have hne : cover.id ≠ g.placed.id := h.cover_onTop.id_ne_of_kind h.hog_onTop h.cover_kind
  exact ⟨mem_neighbours_of_shared h.hog_onTop hne.symm (h.points _ hcentre) hcentre,
    mem_neighbours_of_shared h.cover_onTop hne hcentre (h.points _ hcentre)⟩

/-- A hedgehog with more arms has the points of the smaller one. -/
theorem mem_of_mem_smaller {centre v : PointName} {arms more : NameSet}
    (hv : v ∈ Cluster.hedgehog centre arms) : v ∈ Cluster.hedgehog centre (arms ∪ more) :=
  Cluster.mem_hedgehog.2 ((Cluster.mem_hedgehog.1 hv).imp_right fun ha =>
    NameSet.mem_union.2 (.inl ha))

/-- If a rigid or balloon that can do nothing else lets a hedgehog grow, no other one can be around
the outcome; and if it is around the outcome itself, the hedgehog was computed from it. -/
theorem exists_dependent_of_extend {me cover : Placed} (hc : d.OnTop cover)
    (hck : cover.cluster.kind ≠ .hedgehog) (hm : d.OnTop me)
    (habsorb : ∀ n ∈ d.neighbours me, d.absorb? me n = none)
    (hapart : ∀ n ∈ d.neighbours me, n.cluster.kind ≠ .hedgehog →
      (me.cluster.shared n.cluster).size < 2)
    (h : d.extendHedgehogs? me = some plan) (hin : ∀ v ∈ plan.output, v ∈ cover.cluster) :
    ∃ hog, d.Inside hog cover ∧ d.dependsOn hog.id cover.id = true := by
  obtain ⟨v, hv, h₁⟩ := List.exists_of_findSome?_eq_some h
  obtain ⟨hog, hhog, h₂⟩ := List.exists_of_findSome?_eq_some h₁
  obtain ⟨rfl, hh⟩ := mem_hedgehogsAt.1 hhog
  obtain ⟨h2, -, -, -, rfl⟩ := extendHedgehog?_eq_some h₂
  -- All points of `me` but the centre are in the output, so around it.
  have hseen : ∀ w ∈ me.cluster.points.erase hog.centre, w ∈ me.cluster ∧ w ∈ cover.cluster :=
    fun w hw => ⟨(NameSet.mem_erase.1 hw).1,
      hin w (Cluster.mem_hedgehog.2 (.inr (NameSet.mem_union.2 (.inr hw))))⟩
  obtain ⟨a, b, ha, hb, hab⟩ := NameSet.two_le_size_iff.1 h2
  -- Two shared points would have been merged before any hedgehog grows.
  obtain rfl : me = cover := by
    refine Classical.not_not.1 fun hne => ?_
    have hmem := mem_neighbours_of_shared hc (fun he => hne (hc.eq_of_id hm he).symm)
      (hseen a ha).1 (hseen a ha).2
    refine Nat.not_le.2 (hapart cover hmem hck) (NameSet.two_le_size_iff.2 ⟨a, b, ?_, ?_, hab⟩)
    · exact Cluster.mem_shared.2 (hseen a ha)
    · exact Cluster.mem_shared.2 (hseen b hb)
  -- The hedgehog lies inside `me`, which could have absorbed it if it did not depend on `me`.
  have hinside : d.Inside hog.placed me :=
    ⟨hh, hc, rfl, hck, fun w hw => hin w (mem_of_mem_smaller hw)⟩
  exact ⟨hog.placed, hinside, hinside.dependsOn (habsorb _ hinside.mem_neighbours.1)⟩

/-- A rule whose outcome is no hedgehog has not found this plan. -/
theorem findSome?_ne_of_kind {f : Placed → Option Plan} (hk : plan.output.kind = .hedgehog)
    (hf : ∀ n, f n = some plan → plan.output.kind ≠ .hedgehog) (l : List Placed) :
    l.findSome? f ≠ some plan := by
  intro h
  obtain ⟨n, -, h⟩ := List.exists_of_findSome?_eq_some h
  exact hf n h hk

theorem absorb?_kind {cover hog : Placed} (h : d.absorb? cover hog = some plan) :
    plan.output.kind ≠ .hedgehog := by
  obtain ⟨-, hc, -, -, rfl⟩ := absorb?_eq_some h
  exact hc

theorem balloonRigid?_kind {balloon rigid : Placed} (h : balloonRigid? balloon rigid = some plan) :
    plan.output.kind ≠ .hedgehog := by
  obtain ⟨-, -, -, rfl⟩ := balloonRigid?_eq_some h
  simp [Cluster.kind]

/-- A rigid lets a hedgehog grow only if it can absorb none and shares one point at most with any
other rigid or balloon. -/
theorem extend_of_searchRigid {me : Placed} (hr : me.cluster.isRigid = true)
    (h : d.searchRigid me = some plan) (hk : plan.output.kind = .hedgehog) :
    (∀ n ∈ d.neighbours me, d.absorb? me n = none) ∧
      (∀ n ∈ d.neighbours me, n.cluster.kind ≠ .hedgehog →
        (me.cluster.shared n.cluster).size < 2) ∧ d.extendHedgehogs? me = some plan := by
  -- The rules are tried in their order; none before the last makes a hedgehog.
  obtain ⟨habsorb, h⟩ := (orElse_eq_some.1 h).resolve_left
    (findSome?_ne_of_kind hk (fun n h => absorb?_kind h) _)
  obtain ⟨hballoon, h⟩ := (orElse_eq_some.1 h).resolve_left
    (findSome?_ne_of_kind hk (fun n h => balloonRigid?_kind h) _)
  obtain ⟨-, h⟩ := (orElse_eq_some.1 h).resolve_left
    (findSome?_ne_of_kind hk (fun n h => by
      obtain ⟨hor, ⟨-, rfl⟩ | ⟨-, -, rfl⟩⟩ := pointRigid?_eq_some h
      · exact kind_ne_of_isRigid hor
      · exact kind_ne_of_isRigid hr) _)
  obtain ⟨hrigid, h⟩ := (orElse_eq_some.1 h).resolve_left
    (findSome?_ne_of_kind hk (fun n h => by
      obtain ⟨-, -, rfl⟩ := rigidRigid?_eq_some h
      simp [Cluster.kind]) _)
  obtain ⟨-, h⟩ := (orElse_eq_some.1 h).resolve_left
    (findSome?_ne_of_kind hk (fun n h => by
      obtain ⟨n', -, h⟩ := List.exists_of_findSome?_eq_some h
      obtain ⟨-, -, -, p, q, r, -, -, -, -, -, -, rfl⟩ := threeRigids?_eq_some h
      simp [Cluster.kind]) _)
  obtain ⟨-, h⟩ := (orElse_eq_some.1 h).resolve_left
    (findSome?_ne_of_kind hk (fun n h => by
      split at h
      · simp [kind_of_rigidsByAngle? h]
      · cases h) _)
  simp only [List.findSome?_eq_none_iff] at habsorb hballoon hrigid
  refine ⟨habsorb, fun n hn hnk => Nat.not_le.1 fun h2 => ?_, h⟩
  -- The rules for two rigids and for a balloon have found nothing, so little is shared.
  cases hnk' : n.cluster.kind with
  | rigid =>
    have hnone := hrigid n hn
    simp [rigidRigid?, Cluster.isRigid_iff.2 hnk', h2] at hnone
  | hedgehog => exact hnk hnk'
  | balloon =>
    have hnone := hballoon n hn
    rw [shared_comm] at h2
    simp [balloonRigid?, hr, hnk', h2] at hnone

/-- The same for a balloon. -/
theorem extend_of_searchBalloon {me : Placed} (hb : me.cluster.kind = .balloon)
    (h : d.searchBalloon me = some plan) (hk : plan.output.kind = .hedgehog) :
    (∀ n ∈ d.neighbours me, d.absorb? me n = none) ∧
      (∀ n ∈ d.neighbours me, n.cluster.kind ≠ .hedgehog →
        (me.cluster.shared n.cluster).size < 2) ∧ d.extendHedgehogs? me = some plan := by
  -- As before, the rules before the last make no hedgehog.
  obtain ⟨habsorb, h⟩ := (orElse_eq_some.1 h).resolve_left
    (findSome?_ne_of_kind hk (fun n h => absorb?_kind h) _)
  obtain ⟨hballoons, h⟩ := (orElse_eq_some.1 h).resolve_left
    (findSome?_ne_of_kind hk (fun n h => by
      obtain ⟨-, -, rfl⟩ := balloons?_eq_some h
      simp [Cluster.kind]) _)
  obtain ⟨hrigid, h⟩ := (orElse_eq_some.1 h).resolve_left
    (findSome?_ne_of_kind hk (fun n h => balloonRigid?_kind h) _)
  simp only [List.findSome?_eq_none_iff] at habsorb hballoons hrigid
  refine ⟨habsorb, fun n hn hnk => Nat.not_le.1 fun h2 => ?_, h⟩
  cases hnk' : n.cluster.kind with
  | rigid =>
    have hnone := hrigid n hn
    simp [balloonRigid?, hb, Cluster.isRigid_iff.2 hnk', h2] at hnone
  | hedgehog => exact hnk hnk'
  | balloon =>
    have hnone := hballoons n hn
    simp [balloons?, hnk', h2] at hnone

/-- A hedgehog becomes a larger one only if nothing absorbs it. -/
theorem absorb?_of_searchHedgehog {me : PlacedHedgehog} (h : d.searchHedgehog me = some plan)
    (hk : plan.output.kind = .hedgehog) :
    (∀ n ∈ d.neighbours me.placed, d.absorb? n me.placed = none) ∧
      ∀ v ∈ me.placed.cluster, v ∈ plan.output := by
  obtain ⟨habsorb, h⟩ := (orElse_eq_some.1 h).resolve_left
    (findSome?_ne_of_kind hk (fun n h => absorb?_kind h) _)
  refine ⟨List.findSome?_eq_none_iff.1 habsorb, fun v hv => ?_⟩
  -- The plan is that of the union of two hedgehogs, of a rigid by angle, of a triangle, or of an
  -- extension; two of these make hedgehogs.
  rcases or_of_orElse_eq_some h with h | h
  · obtain ⟨n, -, h⟩ := List.exists_of_findSome?_eq_some h
    obtain ⟨arms, a, -, -, -, rfl⟩ := hedgehogs?_eq_some h
    exact mem_of_mem_smaller hv
  rcases or_of_orElse_eq_some h with h | h
  · obtain ⟨p, -, h⟩ := List.exists_of_findSome?_eq_some h
    rw [kind_of_rigidsByAngle? h] at hk
    cases hk
  rcases or_of_orElse_eq_some h with h | h
  · obtain ⟨b, -, h⟩ := List.exists_of_findSome?_eq_some h
    obtain ⟨other, -, h⟩ := List.exists_of_findSome?_eq_some h
    split at h
    · cases h
    · obtain ⟨c, -, h⟩ := List.exists_of_findSome?_eq_some h
      obtain ⟨-, rfl⟩ := triangleOver?_eq_some h
      cases hk
  · obtain ⟨n, -, h⟩ := List.exists_of_findSome?_eq_some h
    split at h
    · obtain ⟨-, -, -, -, rfl⟩ := extendHedgehog?_eq_some h
      exact mem_of_mem_smaller hv
    · cases h

/-- A search makes a hedgehog inside a rigid or balloon only if there is one already that was
computed from it. -/
theorem exists_dependent_of_search {cover : Placed} (hid : id ∈ d.topLevel)
    (h : d.search id = some plan) (hk : plan.output.kind = .hedgehog) (hc : d.OnTop cover)
    (hck : cover.cluster.kind ≠ .hedgehog) (hin : ∀ v ∈ plan.output, v ∈ cover.cluster) :
    ∃ hog, d.Inside hog cover ∧ d.dependsOn hog.id cover.id = true := by
  cases hcl : d.cluster? id with
  | none =>
    rw [search, hcl] at h
    cases h
  | some c =>
    -- A rigid or balloon lets a hedgehog grow; a hedgehog grows itself and would be inside.
    cases c with
    | rigid p =>
      have hm : d.OnTop ⟨id, .rigid p⟩ := ⟨hid, hcl⟩
      obtain ⟨habsorb, hapart, hext⟩ :=
        extend_of_searchRigid rfl ((search_of_rigid hm rfl).symm.trans h) hk
      exact exists_dependent_of_extend hc hck hm habsorb hapart hext hin
    | hedgehog centre arms =>
      have hm : d.OnTop (PlacedHedgehog.placed ⟨id, centre, arms⟩) := ⟨hid, hcl⟩
      obtain ⟨habsorb, hgrown⟩ :=
        absorb?_of_searchHedgehog ((search_of_hedgehog hm).symm.trans h) hk
      have hinside : d.Inside (PlacedHedgehog.placed ⟨id, centre, arms⟩) cover :=
        ⟨hm, hc, rfl, hck, fun v hv => hin v (hgrown v hv)⟩
      exact ⟨_, hinside, hinside.dependsOn (habsorb _ hinside.mem_neighbours.2)⟩
    | balloon p =>
      have hm : d.OnTop ⟨id, .balloon p⟩ := ⟨hid, hcl⟩
      obtain ⟨habsorb, hapart, hext⟩ :=
        extend_of_searchBalloon rfl ((search_of_balloon hm rfl).symm.trans h) hk
      exact exists_dependent_of_extend hc hck hm habsorb hapart hext hin

/-- What a search finds makes no hedgehog inside a cluster that it was computed from. -/
theorem Independent.carryOut (h : d.Independent) (hd : d.Sound) (hl : d.Lineage)
    (hid : id ∈ d.topLevel) (hs : d.search id = some plan) : (d.carryOut plan).2.Independent := by
  obtain ⟨ps, hf⟩ := finding_of_search hid hs
  have hcar := hd.carryOut (hf.sound hd.grounded)
  rintro hog cover ⟨hh, hc, hhk, hck, hin⟩ hlead
  rcases hcar.onTop_cases hd.grounded hh with hh | rfl
  · -- An old hedgehog was computed from old clusters only.
    have hlive := hd.grounded.top _ hh.1
    have hlead' := ((d.partOf_carryOut plan).leadsTo_iff hd.grounded hlive).1 hlead
    rcases hcar.onTop_cases hd.grounded hc with hc | rfl
    · exact h hog cover ⟨hh, hc, hhk, hck, hin⟩ hlead'
    · exact hcar.fresh (hd.grounded.eq_of_leadsTo hcar.fresh hlead' ▸ hlive)
  · rcases hcar.onTop_cases hd.grounded hc with hc | rfl
    · obtain ⟨hog, hinside, hdep⟩ := exists_dependent_of_search hid hs hhk hc hck hin
      exact h hog cover hinside ((hl.dependsOn_iff hd.grounded).1 hdep)
    · exact hck hhk

theorem Independent.receive (h : d.Independent) (hg : d.Grounded) (c : Cluster) :
    (d.receive c).2.Independent := by
  rintro hog cover ⟨hh, hc, hhk, hck, hin⟩ hlead
  have hlead' : d.LeadsTo cover.id hog.id := hlead
  have hne : cover.id ≠ hog.id := hc.id_ne_of_kind hh (by rwa [hhk])
  rcases onTop_receive_cases hh with hh | rfl
  · rcases onTop_receive_cases hc with hc | rfl
    · exact h hog cover ⟨hh, hc, hhk, hck, hin⟩ hlead'
    · exact hne (hg.eq_of_leadsTo not_live_nextKey hlead')
  · -- No merge has the new cluster as its output.
    rcases Relation.ReflTransGen.cases_tail hlead' with he | ⟨b, -, k, m, hk, -, hout⟩
    · exact hne he.symm
    · exact not_live_nextKey (hout ▸ (hg.merge k m hk).output)

theorem Independent.process (h : d.Independent) (hd : d.Sound) (hl : d.Lineage) :
    d.process.Independent :=
  (hd.process_of_search (P := fun d => d.Lineage ∧ d.Independent)
    (fun _ _ hp => ⟨hp.1.of_merges fun _ _ hk => hk,
      hp.2.of_onTop (fun _ hp => hp) fun _ _ hab => hab⟩)
    (fun x id plan hx hp htop hs => by
      obtain ⟨ps, hf⟩ := finding_of_search htop hs
      exact ⟨hp.1.carryOut hx (hf.sound hx.grounded), hp.2.carryOut hx hp.1 htop hs⟩) ⟨hl, h⟩).2.2

/-! ### Weaker clusters on the top level -/

theorem isRigid_of_size_lt {c : Cluster} (hc : c.Valid) (hk : c.kind ≠ .hedgehog)
    (h : c.points.size < 2) : c.isRigid = true := by
  cases c with
  | rigid p => rfl
  | hedgehog centre arms => exact absurd rfl hk
  | balloon p =>
    have h3 : 3 ≤ p.size := Cluster.valid_balloon_iff.1 hc
    have h' : p.size < 2 := h
    omega

/-- No cluster on the top level is weaker than another one. -/
def Irredundant (d : Decomposition) : Prop :=
  ∀ p q, d.OnTop p → d.OnTop q → p.cluster.Weaker q.cluster → p = q

/-- A saturated top level is irredundant: where one cluster is weaker than another, a rule joins
them. -/
theorem Saturated.irredundant (h : d.Saturated) (hg : d.Grounded) (hl : d.Lineage)
    (hi : d.Independent) : d.Irredundant := by
  intro p q hp hq hw
  have hvalid := hg.valid _ _ hp.2
  refine Classical.not_not.1 fun hne => ?_
  have hid : q.id ≠ p.id := fun he => hne (hq.eq_of_id hp he).symm
  by_cases hpk : p.cluster.kind = .hedgehog
  · obtain ⟨g, rfl⟩ := OnTop.exists_hedgehog hpk
    by_cases hqk : q.cluster.kind = .hedgehog
    · obtain ⟨g', rfl⟩ := OnTop.exists_hedgehog hqk
      obtain ⟨a, -, ha, -, -⟩ := NameSet.two_le_size_iff.1 (Cluster.valid_hedgehog_iff.1 hvalid).2
      obtain rfl := h.eq_of_arm hp hq (hw.centre_eq hvalid).symm ha (hw.arms_subset a ha)
      exact hne rfl
    · have hinside : d.Inside g.placed q := ⟨hp, hq, rfl, hqk, fun v hv => hw.mem hvalid hv⟩
      refine hi g.placed q hinside ((hl.dependsOn_iff hg).1 (hinside.dependsOn ?_))
      exact Option.eq_none_iff_forall_ne_some.2 fun plan hplan =>
        saturated_iff.1 h _ plan (.absorb hq hp hplan)
  · have hqk := hw.kind_ne hvalid hpk
    by_cases h2 : 2 ≤ p.cluster.points.size
    · obtain ⟨v, w, hv, hw', hvw⟩ := NameSet.two_le_size_iff.1 h2
      exact hne (h.eq_of_shared hp hq hpk hqk hvw ⟨hv, hw.mem hvalid hv⟩ ⟨hw', hw.mem hvalid hw'⟩)
    · -- A lone point joins any rigid around it.
      obtain ⟨v, hv⟩ := hvalid.exists_mem
      have hr := isRigid_of_size_lt hvalid hpk (Nat.not_le.1 h2)
      have hone : p.cluster.size = 1 := by
        have hpos := NameSet.size_pos_iff.2 ⟨v, hv⟩
        rw [Cluster.size_of_isRigid hr]
        omega
      have hplan : d.pointRigid? p q = some (d.joinPoint q p) := by
        simp [pointRigid?, hw.isRigid hvalid hr, hone]
      exact saturated_iff.1 h _ _ (.pointRigid hp hq hid hr ⟨v, hv, hw.mem hvalid hv⟩ hplan)

theorem Irredundant.nodup_topClusters (h : d.Irredundant) : d.topClusters.Nodup := by
  refine List.Pairwise.filterMap _ ?_ (List.Pairwise.and_mem.1 d.topLevel.nodup)
  rintro i j ⟨hi, hj, hij⟩ c hc c' hc' rfl
  exact hij (congrArg Placed.id (h ⟨i, c⟩ ⟨j, c⟩ ⟨hi, hc⟩ ⟨hj, hc'⟩ (.refl c)))

end Decomposition

end PlanarSketch
