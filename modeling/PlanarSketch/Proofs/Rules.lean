/-
The merge rules without the search.

`Finding d participants plan` says that a rule applies to certain top-level
clusters and plans a certain merge, whoever looks for it.  The guards of each
rule are read off its definition once and for all.

* `OnTop`, `mem_neighbours`, `mem_hedgehogsAt`, `covered_iff`: who takes part;
* `GivesAngle`: a hedgehog with an angle between two rigids, symmetric in the
  two;
* `absorb?_eq_some` and the like: the guard of each rule, and its plan;
* `Finding`: the rules.
-/
import PlanarSketch.Proofs.Grounded

namespace PlanarSketch

/-- A hedgehog as a cluster with its key. -/
def PlacedHedgehog.placed (h : PlacedHedgehog) : Placed := ⟨h.id, .hedgehog h.centre h.arms⟩

namespace Decomposition

variable {d : Decomposition} {id : ClusterId} {plan : Plan}

/-! ### Who takes part -/

/-- The cluster stands on the top level under its key. -/
def OnTop (d : Decomposition) (p : Placed) : Prop :=
  p.id ∈ d.topLevel ∧ d.cluster? p.id = some p.cluster

theorem OnTop.eq_of_id {p q : Placed} (hp : d.OnTop p) (hq : d.OnTop q) (h : p.id = q.id) :
    p = q := by
  obtain ⟨i, c⟩ := p
  obtain ⟨j, c'⟩ := q
  obtain rfl : i = j := h
  obtain rfl : c = c' := Option.some_inj.1 (hp.2.symm.trans hq.2)
  rfl

/-- Clusters of different kinds have different keys. -/
theorem OnTop.id_ne_of_kind {p q : Placed} (hp : d.OnTop p) (hq : d.OnTop q)
    (h : p.cluster.kind ≠ q.cluster.kind) : p.id ≠ q.id := by
  intro he
  rw [hp.eq_of_id hq he] at h
  exact h rfl

theorem mem_clustersWith {v : PointName} :
    id ∈ d.clustersWith v ↔ ∃ c, d.cluster? id = some c ∧ v ∈ c := by
  simp only [clustersWith, List.mem_map, List.mem_filter, decide_eq_true_eq, cluster?,
    Option.map_eq_some_iff]
  constructor
  · rintro ⟨⟨i, n⟩, ⟨hn, hv⟩, rfl⟩
    exact ⟨n.cluster, ⟨n, Registry.find?_eq_some.2 hn, rfl⟩, hv⟩
  · rintro ⟨c, ⟨n, hn, rfl⟩, hv⟩
    exact ⟨(id, n), ⟨Registry.find?_eq_some.1 hn, hv⟩, rfl⟩

/-- The neighbours of a cluster are the other top-level clusters that share a point with it. -/
theorem mem_neighbours {me n : Placed} : n ∈ d.neighbours me ↔
    d.OnTop n ∧ n.id ≠ me.id ∧ ∃ v, v ∈ me.cluster ∧ v ∈ n.cluster := by
  simp only [neighbours, List.mem_filterMap, OrderedSet.mem_toList, OrderedSet.mem_ofList,
    List.mem_flatMap, List.mem_filter, Bool.and_eq_true, decide_eq_true_eq, isTopLevel_iff,
    mem_clustersWith, NameSet.mem_toList, Cluster.mem_points, Option.map_eq_some_iff]
  constructor
  · rintro ⟨i, ⟨v, hv, ⟨c, hc, hcv⟩, hne, htop⟩, c', hc', rfl⟩
    obtain rfl := Option.some_inj.1 (hc.symm.trans hc')
    exact ⟨⟨htop, hc⟩, hne, v, hv, hcv⟩
  · rintro ⟨⟨htop, hc⟩, hne, v, hv, hnv⟩
    exact ⟨n.id, ⟨v, hv, ⟨n.cluster, hc, hnv⟩, hne, htop⟩, n.cluster, hc, rfl⟩

/-- No key stands twice among the neighbours. -/
theorem pairwise_neighbours (d : Decomposition) (me : Placed) :
    (d.neighbours me).Pairwise fun p q => p.id ≠ q.id := by
  refine List.Pairwise.filterMap _ ?_ (OrderedSet.nodup _)
  intro i j hij p hp q hq
  obtain ⟨c, -, rfl⟩ := Option.map_eq_some_iff.1 hp
  obtain ⟨c', -, rfl⟩ := Option.map_eq_some_iff.1 hq
  exact hij

theorem mem_hedgehogsAt {v : PointName} {h : PlacedHedgehog} :
    h ∈ d.hedgehogsAt v ↔ h.centre = v ∧ d.OnTop h.placed := by
  simp only [hedgehogsAt, List.mem_filterMap]
  constructor
  · -- Only entries that are hedgehogs around the point pass both checks.
    rintro ⟨⟨i, n⟩, hn, hsome⟩
    dsimp only at hsome
    split at hsome
    · rename_i c arms hcl
      split at hsome
      · rename_i hcond
        obtain rfl := Option.some_inj.1 hsome
        rw [Bool.and_eq_true, decide_eq_true_eq, isTopLevel_iff] at hcond
        refine ⟨hcond.1, hcond.2, ?_⟩
        exact Option.map_eq_some_iff.2 ⟨n, Registry.find?_eq_some.2 hn, hcl⟩
      · cases hsome
    · cases hsome
  · rintro ⟨rfl, htop, hc⟩
    obtain ⟨n, hn, hcl⟩ := Option.map_eq_some_iff.1 hc
    refine ⟨(h.id, n), Registry.find?_eq_some.1 hn, ?_⟩
    dsimp only
    rw [hcl]
    have hid : h.id ∈ d.topLevel := htop
    exact if_pos (by simpa [isTopLevel_iff] using hid)

theorem covered_iff {t : NameSet} : d.covered t = true ↔
    ∃ p, d.OnTop p ∧ p.cluster.kind ≠ .hedgehog ∧ ∀ v ∈ t, v ∈ p.cluster := by
  simp only [covered, List.any_eq_true, Option.any_eq_true, Bool.and_eq_true, decide_eq_true_eq,
    Cluster.containsAll, List.all_eq_true]
  constructor
  · rintro ⟨id, hid, c, hc, hk, hv⟩
    exact ⟨⟨id, c⟩, ⟨hid, hc⟩, hk, hv⟩
  · rintro ⟨p, ⟨hid, hc⟩, hk, hv⟩
    exact ⟨p.id, hid, p.cluster, hc, hk, hv⟩

/-! ### Angles between two rigids -/

theorem shared_comm (c e : Cluster) : c.shared e = e.shared c :=
  NameSet.ext_mem fun v => by
    rw [Cluster.mem_shared, Cluster.mem_shared, and_comm]

/-- What a single shared point means for the points of the two clusters. -/
theorem only?_shared {c e : Cluster} {b : PointName} (h : (c.shared e).only? = some b) :
    (b ∈ c ∧ b ∈ e) ∧ ∀ v, v ∈ c → v ∈ e → v = b := by
  have hb := NameSet.only?_eq_some.1 h
  refine ⟨Cluster.mem_shared.1 ((hb b).2 rfl), fun v h₁ h₂ => ?_⟩
  exact (hb v).1 (Cluster.mem_shared.2 ⟨h₁, h₂⟩)

theorem armTo?_eq_some {arms : NameSet} {inside outside : Cluster} {a : PointName}
    (h : armTo? arms inside outside = some a) : a ∈ arms ∧ a ∈ inside ∧ a ∉ outside := by
  have hp := List.find?_some h
  rw [Bool.and_eq_true, decide_eq_true_eq, decide_eq_true_eq] at hp
  exact ⟨List.mem_of_find?_eq_some h, hp⟩

theorem armTo?_of_mem {arms : NameSet} {inside outside : Cluster} {a : PointName}
    (ha : a ∈ arms) (hi : a ∈ inside) (ho : a ∉ outside) :
    ∃ c, armTo? arms inside outside = some c := by
  rw [← Option.isSome_iff_exists, armTo?, List.find?_isSome]
  exact ⟨a, ha, by simp [hi, ho]⟩

/-- The hedgehog is centred in `near` and sees the shared point and a point of `far`. -/
def SeesAcross (near far : Cluster) (b : PointName) (h : PlacedHedgehog) : Prop :=
  h.centre ∈ near ∧ h.centre ≠ b ∧ b ∈ h.arms ∧ ∃ c ∈ h.arms, c ∈ far ∧ c ∉ near

/-- The hedgehog gives an angle between two rigids that share `b`: at `b`, or at a point of one of
them. -/
def GivesAngle (r n : Cluster) (b : PointName) (h : PlacedHedgehog) : Prop :=
  (h.centre = b ∧ (∃ a ∈ h.arms, a ∈ r ∧ a ∉ n) ∧ ∃ c ∈ h.arms, c ∈ n ∧ c ∉ r) ∨
    SeesAcross r n b h ∨ SeesAcross n r b h

theorem GivesAngle.symm {r n : Cluster} {b : PointName} {h : PlacedHedgehog}
    (ha : GivesAngle r n b h) : GivesAngle n r b h := by
  rcases ha with ⟨hc, h₁, h₂⟩ | hs | hs
  · exact .inl ⟨hc, h₂, h₁⟩
  · exact .inr (.inr hs)
  · exact .inr (.inl hs)

theorem givesAngle_between {r n : Cluster} {a b c : PointName} {h : PlacedHedgehog}
    (hb : h.centre = b) (ha : armTo? h.arms r n = some a) (hc : armTo? h.arms n r = some c) :
    GivesAngle r n b h :=
  .inl ⟨hb, ⟨a, armTo?_eq_some ha⟩, c, armTo?_eq_some hc⟩

theorem givesAngle_beside {r n near far : Cluster} {b c : PointName} {h : PlacedHedgehog}
    (hsides : near = r ∧ far = n ∨ near = n ∧ far = r) (hcentre : h.centre ∈ near)
    (hcb : h.centre ≠ b) (hba : b ∈ h.arms) (hc : armTo? h.arms far near = some c) :
    GivesAngle r n b h := by
  have hsees : SeesAcross near far b h := ⟨hcentre, hcb, hba, c, armTo?_eq_some hc⟩
  rcases hsides with ⟨rfl, rfl⟩ | ⟨rfl, rfl⟩
  · exact .inr (.inl hsees)
  · exact .inr (.inr hsees)

theorem angleBesideAt?_ne_none {r n : Placed} {b : PointName} {near far : Cluster} {i j : Nat}
    {h : PlacedHedgehog} (hh : d.OnTop h.placed) (hs : SeesAcross near far b h) :
    d.angleBesideAt? r n b near far i j ≠ none := by
  obtain ⟨hnear, hne, hb, c, hc, hfar, hnn⟩ := hs
  intro hnone
  have h₁ := List.findSome?_eq_none_iff.1 hnone h.centre hnear
  rw [if_neg hne] at h₁
  have h₂ := List.findSome?_eq_none_iff.1 h₁ h (mem_hedgehogsAt.2 ⟨rfl, hh⟩)
  rw [if_neg (not_not_intro hb)] at h₂
  obtain ⟨a, ha⟩ := armTo?_of_mem hc hfar hnn
  rw [ha] at h₂
  cases h₂

/-- Whenever some hedgehog gives an angle between two rigids, the rule finds one. -/
theorem rigidsByAngle?_ne_none {r n : Placed} {b : PointName} {h : PlacedHedgehog}
    (hh : d.OnTop h.placed) (hb : (r.cluster.shared n.cluster).only? = some b)
    (ha : GivesAngle r.cluster n.cluster b h) : d.rigidsByAngle? r n ≠ none := by
  intro hnone
  rw [rigidsByAngle?, hb] at hnone
  obtain ⟨hbetween, hbeside⟩ := orElse_eq_none.1 hnone
  obtain ⟨hrn, hnr⟩ := orElse_eq_none.1 hbeside
  rcases ha with ⟨hc, ⟨a, ha, har, han⟩, c, hc', hcn, hcr⟩ | hs | hs
  · have h₁ := List.findSome?_eq_none_iff.1 hbetween h (mem_hedgehogsAt.2 ⟨hc, hh⟩)
    obtain ⟨a', ha'⟩ := armTo?_of_mem ha har han
    obtain ⟨c', hc''⟩ := armTo?_of_mem hc' hcn hcr
    rw [ha', hc''] at h₁
    cases h₁
  · exact angleBesideAt?_ne_none hh hs hrn
  · exact angleBesideAt?_ne_none hh hs hnr

/-! ### The guards of the rules -/

/-- The guards of absorption. -/
theorem absorb?_eq_some {cover hog : Placed} (h : d.absorb? cover hog = some plan) :
    hog.cluster.kind = .hedgehog ∧ cover.cluster.kind ≠ .hedgehog ∧
      hog.cluster.points ⊆ cover.cluster.points ∧ d.dependsOn hog.id cover.id = false ∧
      plan = { rule := if cover.cluster.isRigid then .rigidAbsorbs else .balloonAbsorbs
               inputs := [.existing cover.id, .existing hog.id]
               output := cover.cluster
               redundant := true
               geometry := .keep 0
               prototypeConstraints := [] } := by
  unfold absorb? at h
  split at h
  · rename_i hcond
    simp only [Bool.and_eq_true, decide_eq_true_eq, Bool.not_eq_true'] at hcond
    exact ⟨hcond.1.1.1, hcond.1.1.2, hcond.1.2, hcond.2, (Option.some_inj.1 h).symm⟩
  · cases h

/-- The guards of the merge of a balloon with a rigid. -/
theorem balloonRigid?_eq_some {balloon rigid : Placed}
    (h : balloonRigid? balloon rigid = some plan) :
    balloon.cluster.kind = .balloon ∧ rigid.cluster.isRigid = true ∧
      2 ≤ (balloon.cluster.shared rigid.cluster).size ∧
      plan = { rule := .balloonRigid
               inputs := [.existing balloon.id, .existing rigid.id]
               output := .rigid (balloon.cluster.points ∪ rigid.cluster.points)
               redundant := 3 ≤ (balloon.cluster.shared rigid.cluster).size
               geometry := .scaled 1
               prototypeConstraints := [] } := by
  unfold balloonRigid? at h
  dsimp only at h
  split at h
  · rename_i hcond
    simp only [Bool.and_eq_true, decide_eq_true_eq] at hcond
    exact ⟨hcond.1.1, hcond.1.2, hcond.2, (Option.some_inj.1 h).symm⟩
  · cases h

/-- A lone point joins the other rigid. -/
theorem pointRigid?_eq_some {me other : Placed} (h : d.pointRigid? me other = some plan) :
    other.cluster.isRigid = true ∧
      (me.cluster.size = 1 ∧ plan = d.joinPoint other me ∨
        me.cluster.size ≠ 1 ∧ other.cluster.size = 1 ∧ plan = d.joinPoint me other) := by
  unfold pointRigid? at h
  split at h
  · cases h
  · rename_i hr
    refine ⟨by simpa using hr, ?_⟩
    split at h
    · rename_i hone
      exact .inl ⟨hone, (Option.some_inj.1 h).symm⟩
    · rename_i hone
      split at h
      · rename_i hother
        exact .inr ⟨hone, hother, (Option.some_inj.1 h).symm⟩
      · cases h

theorem rigidRigid?_eq_some {me other : Placed} (h : d.rigidRigid? me other = some plan) :
    other.cluster.isRigid = true ∧ 2 ≤ (me.cluster.shared other.cluster).size ∧
      plan = { rule := .rigidRigid
               inputs := [.existing me.id, .existing other.id]
               output := .rigid (me.cluster.points ∪ other.cluster.points)
               redundant := true
               geometry := .rigid (d.rootPlace [me, other])
               prototypeConstraints := [] } := by
  unfold rigidRigid? at h
  split at h
  · rename_i hcond
    rw [Bool.and_eq_true, decide_eq_true_eq] at hcond
    exact ⟨hcond.1, hcond.2, (Option.some_inj.1 h).symm⟩
  · cases h

theorem balloons?_eq_some {me other : Placed} (h : balloons? me other = some plan) :
    other.cluster.kind = .balloon ∧ 2 ≤ (me.cluster.shared other.cluster).size ∧
      plan = { rule := .balloons
               inputs := [.existing me.id, .existing other.id]
               output := .balloon (me.cluster.points ∪ other.cluster.points)
               redundant := 3 ≤ (me.cluster.shared other.cluster).size
               geometry := .scaled 0
               prototypeConstraints := [] } := by
  unfold balloons? at h
  dsimp only at h
  split at h
  · rename_i hcond
    rw [Bool.and_eq_true, decide_eq_true_eq, decide_eq_true_eq] at hcond
    exact ⟨hcond.1, hcond.2, (Option.some_inj.1 h).symm⟩
  · cases h

/-- Two hedgehogs are joined at one centre when they share an arm. -/
theorem hedgehogs?_eq_some {me : PlacedHedgehog} {other : Placed}
    (h : hedgehogs? me other = some plan) :
    ∃ arms a, other.cluster = .hedgehog me.centre arms ∧ a ∈ me.arms ∧ a ∈ arms ∧
      plan = joinHedgehogs me.centre (.existing me.id) (.existing other.id) me.arms arms := by
  unfold hedgehogs? at h
  split at h
  · rename_i centre arms hc
    split at h
    · rename_i hcond
      rw [Bool.and_eq_true, decide_eq_true_eq, decide_eq_true_eq] at hcond
      obtain ⟨a, ha⟩ := NameSet.size_pos_iff.1 (Nat.pos_of_ne_zero hcond.2)
      rw [NameSet.mem_inter] at ha
      exact ⟨arms, a, hcond.1 ▸ hc, ha.1, ha.2, (Option.some_inj.1 h).symm⟩
    · cases h
  · cases h

/-- A hedgehog grows when the other cluster sees one of its arms and something new. -/
theorem extendHedgehog?_eq_some {source : Placed} {hog : PlacedHedgehog}
    (h : d.extendHedgehog? source hog = some plan) :
    2 ≤ (source.cluster.points.erase hog.centre).size ∧
      (∃ a, a ∈ source.cluster.points.erase hog.centre ∧ a ∈ hog.arms) ∧
      (∃ a, a ∈ source.cluster.points.erase hog.centre ∧ a ∉ hog.arms) ∧
      d.dependsOn hog.id source.id = false ∧
      plan = joinHedgehogs hog.centre (.existing hog.id)
        (.derived source.id hog.centre (source.cluster.points.erase hog.centre)) hog.arms
        (source.cluster.points.erase hog.centre) := by
  unfold extendHedgehog? at h
  dsimp only at h
  split at h
  · cases h
  · rename_i hcond
    simp only [Bool.or_eq_true, decide_eq_true_eq, not_or, Bool.not_eq_true] at hcond
    obtain ⟨⟨⟨hsize, hdis⟩, hsub⟩, hdep⟩ := hcond
    refine ⟨Nat.le_of_not_lt hsize, ?_, ?_, hdep, (Option.some_inj.1 h).symm⟩
    · unfold NameSet.Disjoint at hdis
      simpa [and_assoc] using hdis
    · rw [NameSet.subset_def] at hsub
      simpa [and_assoc] using hsub

/-- Three rigids that pairwise share one point, three different points in all. -/
theorem threeRigids?_eq_some {me first second : Placed}
    (h : d.threeRigids? me first second = some plan) :
    first.cluster.isRigid = true ∧ second.cluster.isRigid = true ∧ second.id ≠ first.id ∧
      ∃ p q r, (me.cluster.shared first.cluster).only? = some p ∧
        (first.cluster.shared second.cluster).only? = some q ∧
        (second.cluster.shared me.cluster).only? = some r ∧ p ≠ q ∧ q ≠ r ∧ r ≠ p ∧
        plan =
          { rule := .threeRigids
            inputs := [.existing me.id, .existing first.id, .existing second.id]
            output := .rigid (me.cluster.points ∪ first.cluster.points ∪ second.cluster.points)
            redundant := false
            geometry :=
              .triangle (.sides p q r 1 2 0) (some (d.rootPlace [me, first, second])) [0, 1, 2]
            prototypeConstraints :=
              [⟨.notClockwise, p, q, r⟩, ⟨.notCounterClockwise, p, q, r⟩] } := by
  unfold threeRigids? at h
  split at h
  · cases h
  · rename_i hcond
    simp only [Bool.or_eq_true, Bool.not_eq_true', decide_eq_true_eq, not_or, Bool.not_eq_false]
      at hcond
    obtain ⟨⟨hf, hs⟩, hne⟩ := hcond
    refine ⟨hf, hs, hne, ?_⟩
    split at h
    · rename_i p q r hp hq hr
      split at h
      · cases h
      · rename_i hpqr
        simp only [Bool.or_eq_true, decide_eq_true_eq, not_or] at hpqr
        exact ⟨p, q, r, hp, hq, hr, hpqr.1.1, hpqr.1.2, hpqr.2, (Option.some_inj.1 h).symm⟩
    · cases h

theorem triangleOver?_eq_some {me other : PlacedHedgehog} {c : PointName}
    (h : d.triangleOver? me other c = some plan) :
    d.covered (NameSet.ofList [me.centre, other.centre, c]) = false ∧
      plan =
        { rule := .hedgehogsToBalloon
          inputs :=
            [withArms me (.ofList [other.centre, c]), withArms other (.ofList [me.centre, c])]
          output := .balloon (NameSet.ofList [me.centre, other.centre, c])
          redundant := false
          geometry := .triangle (.angles me.centre other.centre c 0 1) none []
          prototypeConstraints := [] } := by
  unfold triangleOver? at h
  dsimp only at h
  split at h
  · cases h
  · rename_i hcov
    exact ⟨by simpa using hcov, (Option.some_inj.1 h).symm⟩

/-! ### The rules -/

/-- A rule applies to the participants, all on the top level, and plans a merge. -/
inductive Finding (d : Decomposition) : List ClusterId → Plan → Prop
  | absorb {cover hog : Placed} {plan : Plan} (hc : d.OnTop cover) (hh : d.OnTop hog)
      (h : d.absorb? cover hog = some plan) : Finding d [cover.id, hog.id] plan
  | balloonRigid {balloon rigid : Placed} {plan : Plan} (hb : d.OnTop balloon)
      (hr : d.OnTop rigid) (h : balloonRigid? balloon rigid = some plan) :
      Finding d [balloon.id, rigid.id] plan
  | pointRigid {me other : Placed} {plan : Plan} (hm : d.OnTop me) (ho : d.OnTop other)
      (hne : other.id ≠ me.id) (hr : me.cluster.isRigid = true)
      (hv : ∃ v, v ∈ me.cluster ∧ v ∈ other.cluster) (h : d.pointRigid? me other = some plan) :
      Finding d [me.id, other.id] plan
  | rigidRigid {me other : Placed} {plan : Plan} (hm : d.OnTop me) (ho : d.OnTop other)
      (hne : other.id ≠ me.id) (hr : me.cluster.isRigid = true)
      (h : d.rigidRigid? me other = some plan) : Finding d [me.id, other.id] plan
  | balloons {me other : Placed} {plan : Plan} (hm : d.OnTop me) (ho : d.OnTop other)
      (hne : other.id ≠ me.id) (hb : me.cluster.kind = .balloon)
      (h : balloons? me other = some plan) : Finding d [me.id, other.id] plan
  | hedgehogs {me : PlacedHedgehog} {other : Placed} {plan : Plan} (hm : d.OnTop me.placed)
      (ho : d.OnTop other) (hne : other.id ≠ me.id) (h : hedgehogs? me other = some plan) :
      Finding d [me.id, other.id] plan
  | threeRigids {me first second : Placed} {plan : Plan} (hm : d.OnTop me) (h₁ : d.OnTop first)
      (h₂ : d.OnTop second) (hne₁ : first.id ≠ me.id) (hne₂ : second.id ≠ me.id)
      (hr : me.cluster.isRigid = true) (h : d.threeRigids? me first second = some plan) :
      Finding d [me.id, first.id, second.id] plan
  | angleBetween {r n : Placed} {h : PlacedHedgehog} {a b c : PointName} (hr : d.OnTop r)
      (hn : d.OnTop n) (hh : d.OnTop h.placed) (hne : n.id ≠ r.id)
      (hrr : r.cluster.isRigid = true) (hnr : n.cluster.isRigid = true)
      (hb : (r.cluster.shared n.cluster).only? = some b) (hcentre : h.centre = b)
      (ha : armTo? h.arms r.cluster n.cluster = some a)
      (hc : armTo? h.arms n.cluster r.cluster = some c) :
      Finding d [r.id, n.id, h.id]
        (d.joinByAngle .rigidsAngleBetween r n (withArms h (.ofList [a, c]))
          (.sidesAndAngle a b c 0 2 1) [])
  | angleBeside {r n : Placed} {h : PlacedHedgehog} {b c : PointName} {near far : Cluster}
      {nearPlace farPlace : Nat} (hr : d.OnTop r) (hn : d.OnTop n) (hh : d.OnTop h.placed)
      (hne : n.id ≠ r.id) (hrr : r.cluster.isRigid = true) (hnr : n.cluster.isRigid = true)
      (hb : (r.cluster.shared n.cluster).only? = some b)
      (hsides : near = r.cluster ∧ far = n.cluster ∧ nearPlace = 0 ∧ farPlace = 1 ∨
        near = n.cluster ∧ far = r.cluster ∧ nearPlace = 1 ∧ farPlace = 0)
      (hcentre : h.centre ∈ near) (hcb : h.centre ≠ b) (hba : b ∈ h.arms)
      (hc : armTo? h.arms far near = some c) :
      Finding d [r.id, n.id, h.id]
        (d.joinByAngle .rigidsAngleBeside r n (withArms h (.ofList [b, c]))
          (.angleAndSides h.centre b c nearPlace 2 farPlace)
          [⟨.notAcute, h.centre, c, b⟩, ⟨.notObtuse, h.centre, c, b⟩])
  | extend {source : Placed} {hog : PlacedHedgehog} {plan : Plan} (hs : d.OnTop source)
      (hh : d.OnTop hog.placed) (hk : source.cluster.kind ≠ .hedgehog)
      (hc : hog.centre ∈ source.cluster) (h : d.extendHedgehog? source hog = some plan) :
      Finding d [source.id, hog.id] plan
  | triangle {me other : PlacedHedgehog} {c : PointName} {plan : Plan} (hm : d.OnTop me.placed)
      (ho : d.OnTop other.placed) (hb : other.centre ∈ me.arms) (ha : me.centre ∈ other.arms)
      (hc : c ∈ me.arms ∩ other.arms) (h : d.triangleOver? me other c = some plan) :
      Finding d [me.id, other.id] plan

/-- Only top-level clusters take part. -/
theorem Finding.mem_topLevel {ps : List ClusterId} (h : Finding d ps plan) (hid : id ∈ ps) :
    id ∈ d.topLevel := by
  cases h with
  | absorb h₁ h₂ | balloonRigid h₁ h₂ | pointRigid h₁ h₂ | rigidRigid h₁ h₂ | balloons h₁ h₂
  | hedgehogs h₁ h₂ | extend h₁ h₂ | triangle h₁ h₂ =>
    simp only [List.mem_cons, List.not_mem_nil, or_false] at hid
    rcases hid with rfl | rfl
    · exact h₁.1
    · exact h₂.1
  | threeRigids h₁ h₂ h₃ | angleBetween h₁ h₂ h₃ | angleBeside h₁ h₂ h₃ =>
    simp only [List.mem_cons, List.not_mem_nil, or_false] at hid
    rcases hid with rfl | rfl | rfl
    · exact h₁.1
    · exact h₂.1
    · exact h₃.1

end Decomposition

end PlanarSketch
