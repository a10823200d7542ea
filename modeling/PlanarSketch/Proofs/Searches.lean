/-
The searches find a merge just when a rule applies.

A search tries the rules in a fixed order from the side of one cluster.  What
it finds is always an application of a rule (`finding_of_search`), though not
always one in which the cluster itself takes part: a hedgehog looks for angles
between the rigids around it and may come upon another hedgehog.  Conversely
every rule can be discovered from the side of each participant
(`Finding.search_ne_none`), in spite of the different orders and filters of the
three searches.  So a decomposition is saturated just when no rule applies to
it (`saturated_iff`).
-/
import PlanarSketch.Proofs.Rules

namespace PlanarSketch

namespace Decomposition

variable {d : Decomposition} {id : ClusterId} {plan : Plan}

/-! ### What a search finds -/

theorem search_of_rigid {me : Placed} (hm : d.OnTop me) (hr : me.cluster.isRigid = true) :
    d.search me.id = d.searchRigid me := by
  obtain ⟨i, c⟩ := me
  obtain ⟨p, rfl⟩ := Cluster.kind_eq_rigid_iff.1 (Cluster.isRigid_iff.1 hr)
  have hc : d.cluster? i = some (.rigid p) := hm.2
  simp only [search, hc]

theorem search_of_balloon {me : Placed} (hm : d.OnTop me) (hb : me.cluster.kind = .balloon) :
    d.search me.id = d.searchBalloon me := by
  obtain ⟨i, c⟩ := me
  obtain ⟨p, rfl⟩ := Cluster.kind_eq_balloon_iff.1 hb
  have hc : d.cluster? i = some (.balloon p) := hm.2
  simp only [search, hc]

theorem search_of_hedgehog {me : PlacedHedgehog} (hm : d.OnTop me.placed) :
    d.search me.id = d.searchHedgehog me := by
  have hc : d.cluster? me.id = some (.hedgehog me.centre me.arms) := hm.2
  simp only [search, hc]

theorem finding_of_angleBesideAt? {r n : Placed} {b : PointName} {near far : Cluster} {i j : Nat}
    (hr : d.OnTop r) (hn : d.OnTop n) (hne : n.id ≠ r.id) (hrr : r.cluster.isRigid = true)
    (hnr : n.cluster.isRigid = true) (hb : (r.cluster.shared n.cluster).only? = some b)
    (hsides : near = r.cluster ∧ far = n.cluster ∧ i = 0 ∧ j = 1 ∨
      near = n.cluster ∧ far = r.cluster ∧ i = 1 ∧ j = 0)
    (h : d.angleBesideAt? r n b near far i j = some plan) : ∃ ps, Finding d ps plan := by
  obtain ⟨a, ha, h⟩ := List.exists_of_findSome?_eq_some h
  split at h
  · cases h
  · rename_i hab
    obtain ⟨hog, hhog, h⟩ := List.exists_of_findSome?_eq_some h
    obtain ⟨rfl, hh⟩ := mem_hedgehogsAt.1 hhog
    split at h
    · cases h
    · rename_i hba
      obtain ⟨c, hc, rfl⟩ := Option.map_eq_some_iff.1 h
      exact ⟨_, .angleBeside hr hn hh hne hrr hnr hb hsides ha hab (Decidable.not_not.1 hba) hc⟩

theorem finding_of_rigidsByAngle? {r n : Placed} (hr : d.OnTop r) (hn : d.OnTop n)
    (hne : n.id ≠ r.id) (hrr : r.cluster.isRigid = true) (hnr : n.cluster.isRigid = true)
    (h : d.rigidsByAngle? r n = some plan) : ∃ ps, Finding d ps plan := by
  unfold rigidsByAngle? at h
  split at h
  · rename_i b hb
    rcases or_of_orElse_eq_some h with h | h
    · obtain ⟨hog, hhog, h⟩ := List.exists_of_findSome?_eq_some h
      obtain ⟨hcentre, hh⟩ := mem_hedgehogsAt.1 hhog
      split at h
      · rename_i a c ha hc
        obtain rfl := Option.some_inj.1 h
        exact ⟨_, .angleBetween hr hn hh hne hrr hnr hb hcentre ha hc⟩
      · cases h
    · -- The hedgehog may be centred in either of the two rigids.
      rcases or_of_orElse_eq_some h with h | h
      · exact finding_of_angleBesideAt? hr hn hne hrr hnr hb (.inl ⟨rfl, rfl, rfl, rfl⟩) h
      · exact finding_of_angleBesideAt? hr hn hne hrr hnr hb (.inr ⟨rfl, rfl, rfl, rfl⟩) h
  · cases h

theorem kind_of_rigidsByAngle? {r n : Placed} (h : d.rigidsByAngle? r n = some plan) :
    plan.output.kind = .rigid := by
  -- Beside the shared point the plan is a join by angle again.
  have hbeside : ∀ {b near far i j}, d.angleBesideAt? r n b near far i j = some plan →
      plan.output.kind = .rigid := by
    intro b near far i j h
    obtain ⟨a, -, h⟩ := List.exists_of_findSome?_eq_some h
    split at h
    · cases h
    · obtain ⟨hog, -, h⟩ := List.exists_of_findSome?_eq_some h
      split at h
      · cases h
      · obtain ⟨c, -, rfl⟩ := Option.map_eq_some_iff.1 h
        rfl
  unfold rigidsByAngle? at h
  split at h
  · rcases or_of_orElse_eq_some h with h | h
    · obtain ⟨hog, -, h⟩ := List.exists_of_findSome?_eq_some h
      split at h
      · obtain rfl := Option.some_inj.1 h
        rfl
      · cases h
    · exact (or_of_orElse_eq_some h).elim hbeside hbeside
  · cases h

theorem finding_of_extendHedgehogs? {source : Placed} (hs : d.OnTop source)
    (hk : source.cluster.kind ≠ .hedgehog) (h : d.extendHedgehogs? source = some plan) :
    ∃ ps, Finding d ps plan := by
  obtain ⟨v, hv, h₁⟩ := List.exists_of_findSome?_eq_some h
  obtain ⟨hog, hhog, h₂⟩ := List.exists_of_findSome?_eq_some h₁
  obtain ⟨rfl, hh⟩ := mem_hedgehogsAt.1 hhog
  exact ⟨_, .extend hs hh hk hv h₂⟩

theorem finding_of_searchRigid {me : Placed} (hm : d.OnTop me) (hr : me.cluster.isRigid = true)
    (h : d.searchRigid me = some plan) : ∃ ps, Finding d ps plan := by
  have hk : me.cluster.kind ≠ .hedgehog := by
    rw [Cluster.isRigid_iff.1 hr]
    decide
  -- The rules for a rigid, in the order in which they are tried.
  rcases or_of_orElse_eq_some h with h | h
  · obtain ⟨n, hn, h⟩ := List.exists_of_findSome?_eq_some h
    exact ⟨_, .absorb hm (mem_neighbours.1 hn).1 h⟩
  rcases or_of_orElse_eq_some h with h | h
  · obtain ⟨n, hn, h⟩ := List.exists_of_findSome?_eq_some h
    exact ⟨_, .balloonRigid (mem_neighbours.1 hn).1 hm h⟩
  rcases or_of_orElse_eq_some h with h | h
  · obtain ⟨n, hn, h⟩ := List.exists_of_findSome?_eq_some h
    obtain ⟨ho, hne, hv⟩ := mem_neighbours.1 hn
    exact ⟨_, .pointRigid hm ho hne hr hv h⟩
  rcases or_of_orElse_eq_some h with h | h
  · obtain ⟨n, hn, h⟩ := List.exists_of_findSome?_eq_some h
    obtain ⟨ho, hne, -⟩ := mem_neighbours.1 hn
    exact ⟨_, .rigidRigid hm ho hne hr h⟩
  rcases or_of_orElse_eq_some h with h | h
  · obtain ⟨n₁, hn₁, h⟩ := List.exists_of_findSome?_eq_some h
    obtain ⟨n₂, hn₂, h⟩ := List.exists_of_findSome?_eq_some h
    obtain ⟨ho₁, hne₁, -⟩ := mem_neighbours.1 hn₁
    obtain ⟨ho₂, hne₂, -⟩ := mem_neighbours.1 hn₂
    exact ⟨_, .threeRigids hm ho₁ ho₂ hne₁ hne₂ hr h⟩
  rcases or_of_orElse_eq_some h with h | h
  · obtain ⟨n, hn, h⟩ := List.exists_of_findSome?_eq_some h
    obtain ⟨ho, hne, -⟩ := mem_neighbours.1 hn
    split at h
    · rename_i hnr
      exact finding_of_rigidsByAngle? hm ho hne hr hnr h
    · cases h
  · exact finding_of_extendHedgehogs? hm hk h

theorem finding_of_searchBalloon {me : Placed} (hm : d.OnTop me)
    (hb : me.cluster.kind = .balloon) (h : d.searchBalloon me = some plan) :
    ∃ ps, Finding d ps plan := by
  have hk : me.cluster.kind ≠ .hedgehog := by
    rw [hb]
    decide
  rcases or_of_orElse_eq_some h with h | h
  · obtain ⟨n, hn, h⟩ := List.exists_of_findSome?_eq_some h
    exact ⟨_, .absorb hm (mem_neighbours.1 hn).1 h⟩
  rcases or_of_orElse_eq_some h with h | h
  · obtain ⟨n, hn, h⟩ := List.exists_of_findSome?_eq_some h
    obtain ⟨ho, hne, -⟩ := mem_neighbours.1 hn
    exact ⟨_, .balloons hm ho hne hb h⟩
  rcases or_of_orElse_eq_some h with h | h
  · obtain ⟨n, hn, h⟩ := List.exists_of_findSome?_eq_some h
    exact ⟨_, .balloonRigid hm (mem_neighbours.1 hn).1 h⟩
  · exact finding_of_extendHedgehogs? hm hk h

theorem finding_of_searchHedgehog {me : PlacedHedgehog} (hm : d.OnTop me.placed)
    (h : d.searchHedgehog me = some plan) : ∃ ps, Finding d ps plan := by
  rcases or_of_orElse_eq_some h with h | h
  · obtain ⟨n, hn, h⟩ := List.exists_of_findSome?_eq_some h
    exact ⟨_, .absorb (mem_neighbours.1 hn).1 hm h⟩
  rcases or_of_orElse_eq_some h with h | h
  · obtain ⟨n, hn, h⟩ := List.exists_of_findSome?_eq_some h
    obtain ⟨ho, hne, -⟩ := mem_neighbours.1 hn
    exact ⟨_, .hedgehogs hm ho hne h⟩
  rcases or_of_orElse_eq_some h with h | h
  · -- The two rigids come from a list in which no key stands twice.
    obtain ⟨⟨r, n⟩, hp, h⟩ := List.exists_of_findSome?_eq_some h
    have hsub := (mem_pairs_iff.1 hp).trans List.filter_sublist
    have hne := (List.pairwise_cons.1 ((pairwise_neighbours d _).sublist hsub)).1 n (by simp)
    have hin := (mem_pairs_iff.1 hp).subset
    have hr := List.mem_filter.1 (hin (by simp : r ∈ [r, n]))
    have hn := List.mem_filter.1 (hin (by simp : n ∈ [r, n]))
    rw [Bool.and_eq_true] at hr hn
    exact finding_of_rigidsByAngle? (mem_neighbours.1 hr.1).1 (mem_neighbours.1 hn.1).1
      (Ne.symm hne) hr.2.1 hn.2.1 h
  rcases or_of_orElse_eq_some h with h | h
  · obtain ⟨b, hb, h₁⟩ := List.exists_of_findSome?_eq_some h
    obtain ⟨other, hother, h₂⟩ := List.exists_of_findSome?_eq_some h₁
    obtain ⟨rfl, ho⟩ := mem_hedgehogsAt.1 hother
    split at h₂
    · cases h₂
    · rename_i ha
      obtain ⟨c, hc, h₃⟩ := List.exists_of_findSome?_eq_some h₂
      exact ⟨_, .triangle hm ho hb (Decidable.not_not.1 ha) hc h₃⟩
  · obtain ⟨n, hn, h⟩ := List.exists_of_findSome?_eq_some h
    split at h
    · rename_i hcond
      rw [Bool.and_eq_true, decide_eq_true_eq, decide_eq_true_eq] at hcond
      exact ⟨_, .extend (mem_neighbours.1 hn).1 hm hcond.1 hcond.2 h⟩
    · cases h

/-- What a search finds is an application of a rule. -/
theorem finding_of_search (hid : id ∈ d.topLevel) (h : d.search id = some plan) :
    ∃ ps, Finding d ps plan := by
  cases hc : d.cluster? id with
  | none =>
    rw [search, hc] at h
    cases h
  | some c =>
    cases c with
    | rigid p =>
      have hm : d.OnTop ⟨id, .rigid p⟩ := ⟨hid, hc⟩
      exact finding_of_searchRigid hm rfl ((search_of_rigid hm rfl).symm.trans h)
    | hedgehog centre arms =>
      have hm : d.OnTop (PlacedHedgehog.placed ⟨id, centre, arms⟩) := ⟨hid, hc⟩
      exact finding_of_searchHedgehog hm ((search_of_hedgehog hm).symm.trans h)
    | balloon p =>
      have hm : d.OnTop ⟨id, .balloon p⟩ := ⟨hid, hc⟩
      exact finding_of_searchBalloon hm rfl ((search_of_balloon hm rfl).symm.trans h)

/-! ### What a search cannot miss -/

theorem mem_neighbours_of_shared {me n : Placed} (hn : d.OnTop n) (hne : n.id ≠ me.id)
    {v : PointName} (hv : v ∈ me.cluster) (hv' : v ∈ n.cluster) : n ∈ d.neighbours me :=
  mem_neighbours.2 ⟨hn, hne, v, hv, hv'⟩

theorem extendHedgehogs?_ne_none {source : Placed} {hog : PlacedHedgehog}
    (hh : d.OnTop hog.placed) (hc : hog.centre ∈ source.cluster)
    (h : d.extendHedgehog? source hog = some plan) : d.extendHedgehogs? source ≠ none := by
  intro hnone
  have h₁ := List.findSome?_eq_none_iff.1 hnone hog.centre hc
  have h₂ := List.findSome?_eq_none_iff.1 h₁ hog (mem_hedgehogsAt.2 ⟨rfl, hh⟩)
  rw [h] at h₂
  cases h₂

/-- Nothing found for a rigid: none of its rules applies. -/
theorem searchRigid_eq_none {me : Placed} (h : d.searchRigid me = none) :
    (∀ n ∈ d.neighbours me, d.absorb? me n = none) ∧
      (∀ n ∈ d.neighbours me, balloonRigid? n me = none) ∧
      (∀ n ∈ d.neighbours me, d.pointRigid? me n = none) ∧
      (∀ n ∈ d.neighbours me, d.rigidRigid? me n = none) ∧
      (∀ n₁ ∈ d.neighbours me, ∀ n₂ ∈ d.neighbours me, d.threeRigids? me n₁ n₂ = none) ∧
      (∀ n ∈ d.neighbours me, n.cluster.isRigid = true → d.rigidsByAngle? me n = none) ∧
      d.extendHedgehogs? me = none := by
  simp only [searchRigid, orElse_eq_none, List.findSome?_eq_none_iff] at h
  obtain ⟨h₁, h₂, h₃, h₄, h₅, h₆, h₇⟩ := h
  refine ⟨h₁, h₂, h₃, h₄, h₅, fun n hn hr => ?_, h₇⟩
  have := h₆ n hn
  rwa [if_pos hr] at this

theorem searchBalloon_eq_none {me : Placed} (h : d.searchBalloon me = none) :
    (∀ n ∈ d.neighbours me, d.absorb? me n = none) ∧
      (∀ n ∈ d.neighbours me, balloons? me n = none) ∧
      (∀ n ∈ d.neighbours me, balloonRigid? me n = none) ∧
      d.extendHedgehogs? me = none := by
  simpa only [searchBalloon, orElse_eq_none, List.findSome?_eq_none_iff] using h

theorem searchHedgehog_eq_none {me : PlacedHedgehog} (h : d.searchHedgehog me = none) :
    (∀ n ∈ d.neighbours me.placed, d.absorb? n me.placed = none) ∧
      (∀ n ∈ d.neighbours me.placed, hedgehogs? me n = none) ∧
      (∀ r n, r ∈ d.neighbours me.placed → n ∈ d.neighbours me.placed → r ≠ n →
        r.cluster.isRigid = true → 1 < r.cluster.size → n.cluster.isRigid = true →
        1 < n.cluster.size → d.rigidsByAngle? r n = none ∨ d.rigidsByAngle? n r = none) ∧
      (∀ other c, d.OnTop other.placed → other.centre ∈ me.arms → me.centre ∈ other.arms →
        c ∈ me.arms ∩ other.arms → d.triangleOver? me other c = none) ∧
      (∀ n ∈ d.neighbours me.placed, n.cluster.kind ≠ .hedgehog → me.centre ∈ n.cluster →
        d.extendHedgehog? n me = none) := by
  simp only [searchHedgehog, orElse_eq_none, List.findSome?_eq_none_iff] at h
  obtain ⟨h₁, h₂, h₃, h₄, h₅⟩ := h
  refine ⟨h₁, h₂, fun r n hr hn hne hrr hrs hnr hns => ?_, fun other c ho hb ha hc => ?_,
    fun n hn hk hc => ?_⟩
  · have hmem : ∀ p ∈ d.neighbours me.placed, p.cluster.isRigid = true → 1 < p.cluster.size →
        p ∈ (d.neighbours me.placed).filter fun n => n.cluster.isRigid && 1 < n.cluster.size := by
      intro p hp hpr hps
      exact List.mem_filter.2 ⟨hp, by simp [hpr, hps]⟩
    -- A pair of rigids is tried in one order only.
    rcases mem_pairs_or (hmem r hr hrr hrs) (hmem n hn hnr hns) hne with hp | hp
    · exact .inl (h₃ _ hp)
    · exact .inr (h₃ _ hp)
  · have hb' := List.findSome?_eq_none_iff.1 h₄ other.centre hb
    have ho' := List.findSome?_eq_none_iff.1 hb' other (mem_hedgehogsAt.2 ⟨rfl, ho⟩)
    rw [if_neg (not_not_intro ha)] at ho'
    exact List.findSome?_eq_none_iff.1 ho' c hc
  · have := h₅ n hn
    rwa [if_pos (by simp [hk, hc])] at this

theorem OnTop.exists_hedgehog {p : Placed} (hk : p.cluster.kind = .hedgehog) :
    ∃ hog : PlacedHedgehog, p = hog.placed := by
  obtain ⟨i, c⟩ := p
  obtain ⟨centre, arms, rfl⟩ := Cluster.kind_eq_hedgehog_iff.1 hk
  exact ⟨⟨i, centre, arms⟩, rfl⟩

/-- Two clusters that meet are neighbours.  If the rules that their searches leave out do not leave
out the other one, both searches find something. -/
theorem search_ne_none_of_meeting {me other : Placed} {v : PointName} {P Q : Placed → Prop}
    (hm : d.OnTop me) (ho : d.OnTop other) (hne : other.id ≠ me.id) (hvm : v ∈ me.cluster)
    (hvo : v ∈ other.cluster) (hP : d.search me.id = none → ∀ n ∈ d.neighbours me, P n)
    (hQ : d.search other.id = none → ∀ n ∈ d.neighbours other, Q n) (hother : ¬P other)
    (hme : ¬Q me) : d.search me.id ≠ none ∧ d.search other.id ≠ none :=
  ⟨fun hnone => hother (hP hnone other (mem_neighbours_of_shared ho hne hvm hvo)),
    fun hnone => hme (hQ hnone me (mem_neighbours_of_shared hm hne.symm hvo hvm))⟩

theorem search_ne_none_of_absorb {cover hog : Placed} (hc : d.OnTop cover) (hh : d.OnTop hog)
    (h : d.absorb? cover hog = some plan) : d.search cover.id ≠ none ∧ d.search hog.id ≠ none := by
  obtain ⟨hkind, hck, hsub, -, -⟩ := absorb?_eq_some h
  obtain ⟨me, rfl⟩ := OnTop.exists_hedgehog hkind
  have hne := hc.id_ne_of_kind hh (by rwa [hkind])
  have hcentre : me.centre ∈ me.placed.cluster := Cluster.mem_hedgehog.2 (.inl rfl)
  refine search_ne_none_of_meeting hc hh hne.symm (hsub _ hcentre) hcentre
    (P := fun n => d.absorb? cover n = none) (Q := fun n => d.absorb? n me.placed = none)
    (fun hnone => ?_) (fun hnone => ?_) (by simp [h]) (by simp [h])
  · -- Rigids and balloons both try to absorb before anything else.
    cases hk : cover.cluster.kind with
    | rigid =>
      rw [search_of_rigid hc (Cluster.isRigid_iff.2 hk)] at hnone
      exact (searchRigid_eq_none hnone).1
    | hedgehog => exact absurd hk hck
    | balloon =>
      rw [search_of_balloon hc hk] at hnone
      exact (searchBalloon_eq_none hnone).1
  · exact (searchHedgehog_eq_none ((search_of_hedgehog hh).symm.trans hnone)).1

theorem search_ne_none_of_balloonRigid {balloon rigid : Placed} (hb : d.OnTop balloon)
    (hr : d.OnTop rigid) (h : balloonRigid? balloon rigid = some plan) :
    d.search balloon.id ≠ none ∧ d.search rigid.id ≠ none := by
  obtain ⟨hbk, hrr, hsize, -⟩ := balloonRigid?_eq_some h
  obtain ⟨v, -, hv, -, -⟩ := NameSet.two_le_size_iff.1 hsize
  obtain ⟨hvb, hvr⟩ := Cluster.mem_shared.1 hv
  have hne : balloon.id ≠ rigid.id := hb.id_ne_of_kind hr (by
    rw [hbk, Cluster.isRigid_iff.1 hrr]
    decide)
  refine search_ne_none_of_meeting hb hr hne.symm hvb hvr
    (P := fun n => balloonRigid? balloon n = none) (Q := fun n => balloonRigid? n rigid = none)
    (fun hnone => ?_) (fun hnone => ?_) (by simp [h]) (by simp [h])
  · rw [search_of_balloon hb hbk] at hnone
    exact (searchBalloon_eq_none hnone).2.2.1
  · rw [search_of_rigid hr hrr] at hnone
    exact (searchRigid_eq_none hnone).2.1

theorem search_ne_none_of_pointRigid {me other : Placed} (hm : d.OnTop me) (ho : d.OnTop other)
    (hne : other.id ≠ me.id) (hr : me.cluster.isRigid = true)
    (hv : ∃ v, v ∈ me.cluster ∧ v ∈ other.cluster) (h : d.pointRigid? me other = some plan) :
    d.search me.id ≠ none ∧ d.search other.id ≠ none := by
  obtain ⟨hor, hcases⟩ := pointRigid?_eq_some h
  obtain ⟨v, hvm, hvo⟩ := hv
  have hrule : ∀ {x : Placed}, d.OnTop x → x.cluster.isRigid = true → d.search x.id = none →
      ∀ n ∈ d.neighbours x, d.pointRigid? x n = none := by
    intro x hx hxr hnone
    rw [search_of_rigid hx hxr] at hnone
    exact (searchRigid_eq_none hnone).2.2.1
  refine search_ne_none_of_meeting hm ho hne hvm hvo (hrule hm hr) (hrule ho hor) (by simp [h]) ?_
  -- The other one looks first whether it is itself the lone point.
  intro hback
  by_cases hone : other.cluster.size = 1
  · simp [pointRigid?, hr, hone] at hback
  · have hme : me.cluster.size = 1 := by
      rcases hcases with ⟨hme, -⟩ | ⟨-, hcon, -⟩
      · exact hme
      · exact absurd hcon hone
    simp [pointRigid?, hr, hone, hme] at hback

/-- A rule for two clusters of one sort that share two points applies from either side. -/
theorem search_ne_none_of_symmetric {R : Placed → Placed → Option Plan} {P : Cluster → Prop}
    (hrule : ∀ x y, R x y ≠ none ↔
      P y.cluster ∧ 2 ≤ (x.cluster.shared y.cluster).size)
    (hsearch : ∀ x, d.OnTop x → P x.cluster → d.search x.id = none →
      ∀ n ∈ d.neighbours x, R x n = none)
    {me other : Placed} (hm : d.OnTop me) (ho : d.OnTop other) (hne : other.id ≠ me.id)
    (hp : P me.cluster) (h : R me other ≠ none) :
    d.search me.id ≠ none ∧ d.search other.id ≠ none := by
  obtain ⟨hpo, hsize⟩ := (hrule me other).1 h
  obtain ⟨v, -, hv, -, -⟩ := NameSet.two_le_size_iff.1 hsize
  obtain ⟨hvm, hvo⟩ := Cluster.mem_shared.1 hv
  have hback : R other me ≠ none := (hrule other me).2 ⟨hp, by rwa [shared_comm]⟩
  exact search_ne_none_of_meeting hm ho hne hvm hvo (hsearch me hm hp) (hsearch other ho hpo) h
    hback

theorem search_ne_none_of_rigidRigid {me other : Placed} (hm : d.OnTop me) (ho : d.OnTop other)
    (hne : other.id ≠ me.id) (hr : me.cluster.isRigid = true)
    (h : d.rigidRigid? me other = some plan) :
    d.search me.id ≠ none ∧ d.search other.id ≠ none := by
  refine search_ne_none_of_symmetric (R := d.rigidRigid?) (P := fun c => c.isRigid = true)
    (fun x y => ?_) (fun x hx hxr hnone => ?_) hm ho hne hr (h ▸ nofun)
  · simp only [rigidRigid?, ne_eq, ite_eq_right_iff, reduceCtorEq, imp_false, not_not,
      Bool.and_eq_true, decide_eq_true_eq]
  · rw [search_of_rigid hx hxr] at hnone
    exact (searchRigid_eq_none hnone).2.2.2.1

theorem search_ne_none_of_balloons {me other : Placed} (hm : d.OnTop me) (ho : d.OnTop other)
    (hne : other.id ≠ me.id) (hb : me.cluster.kind = .balloon)
    (h : balloons? me other = some plan) :
    d.search me.id ≠ none ∧ d.search other.id ≠ none := by
  refine search_ne_none_of_symmetric (R := balloons?) (P := fun c => c.kind = .balloon)
    (fun x y => ?_) (fun x hx hxb hnone => ?_) hm ho hne hb (h ▸ nofun)
  · simp only [balloons?, ne_eq, ite_eq_right_iff, reduceCtorEq, imp_false, not_not,
      Bool.and_eq_true, decide_eq_true_eq]
  · rw [search_of_balloon hx hxb] at hnone
    exact (searchBalloon_eq_none hnone).2.1

theorem search_ne_none_of_hedgehogs {me : PlacedHedgehog} {other : Placed}
    (hm : d.OnTop me.placed) (ho : d.OnTop other) (hne : other.id ≠ me.id)
    (h : hedgehogs? me other = some plan) :
    d.search me.id ≠ none ∧ d.search other.id ≠ none := by
  obtain ⟨arms, a, hoc, ha, ha', -⟩ := hedgehogs?_eq_some h
  obtain ⟨i, c⟩ := other
  obtain rfl : c = .hedgehog me.centre arms := hoc
  let him : PlacedHedgehog := ⟨i, me.centre, arms⟩
  have ho : d.OnTop him.placed := ho
  have hrule : ∀ {hog : PlacedHedgehog}, d.OnTop hog.placed → d.search hog.id = none →
      ∀ n ∈ d.neighbours hog.placed, hedgehogs? hog n = none := fun hx hnone =>
    (searchHedgehog_eq_none ((search_of_hedgehog hx).symm.trans hnone)).2.1
  have hpos : (arms ∩ me.arms).size ≠ 0 :=
    Nat.ne_of_gt (NameSet.size_pos_iff.2 ⟨a, NameSet.mem_inter.2 ⟨ha', ha⟩⟩)
  refine search_ne_none_of_meeting (v := me.centre) hm ho hne (Cluster.mem_hedgehog.2 (.inl rfl))
    (Cluster.mem_hedgehog.2 (.inl rfl)) (hrule hm) (hrule ho) ?_ ?_
  · exact fun hno => absurd (hno.symm.trans h) nofun
  · simp [hedgehogs?, PlacedHedgehog.placed, him, hpos]

/-- Three rigids can be looked at from the next one just as well. -/
theorem threeRigids?_rotate {me first second : Placed} (hr : me.cluster.isRigid = true)
    (hne : second.id ≠ me.id) (h : d.threeRigids? me first second = some plan) :
    ∃ plan', d.threeRigids? first second me = some plan' := by
  obtain ⟨-, hs, -, p, q, r, hp, hq, hr', hpq, hqr, hrp, -⟩ := threeRigids?_eq_some h
  unfold threeRigids?
  rw [hp, hq, hr', if_neg (by simp [hs, hr, Ne.symm hne])]
  exact ⟨_, if_neg (by simp [hqr, hrp, hpq])⟩

theorem search_ne_none_of_threeRigids {me first second : Placed} (hm : d.OnTop me)
    (h₁ : d.OnTop first) (h₂ : d.OnTop second) (hne₁ : first.id ≠ me.id)
    (hne₂ : second.id ≠ me.id) (hr : me.cluster.isRigid = true)
    (h : d.threeRigids? me first second = some plan) : d.search me.id ≠ none := by
  obtain ⟨-, -, -, p, q, r, hp, -, hr', -⟩ := threeRigids?_eq_some h
  obtain ⟨hpm, hpf⟩ := (only?_shared hp).1
  obtain ⟨hrs, hrm⟩ := (only?_shared hr').1
  intro hnone
  rw [search_of_rigid hm hr] at hnone
  have hmem₁ := mem_neighbours_of_shared h₁ hne₁ hpm hpf
  have hmem₂ := mem_neighbours_of_shared h₂ hne₂ hrm hrs
  exact absurd ((searchRigid_eq_none hnone).2.2.2.2.1 _ hmem₁ _ hmem₂) (by simp [h])

/-- A hedgehog that gives an angle between two rigids has their shared point and a further point of
each. -/
theorem GivesAngle.points {r n : Cluster} {b : PointName} {h : PlacedHedgehog}
    (ha : GivesAngle r n b h) (hbr : b ∈ r) (hbn : b ∈ n) : b ∈ h.placed.cluster ∧
      (∃ v ∈ h.placed.cluster, v ∈ r ∧ v ≠ b) ∧ ∃ v ∈ h.placed.cluster, v ∈ n ∧ v ≠ b := by
  have hother : ∀ {c : PointName} {e : Cluster}, b ∈ e → c ∉ e → c ≠ b := by
    rintro c e hbe hce rfl
    exact hce hbe
  have hcentre : h.centre ∈ h.placed.cluster := Cluster.mem_hedgehog.2 (.inl rfl)
  have harm : ∀ {a}, a ∈ h.arms → a ∈ h.placed.cluster := fun ha => Cluster.mem_hedgehog.2 (.inr ha)
  rcases ha with ⟨rfl, ⟨a, haa, har, han⟩, c, hca, hcn, hcr⟩ | ⟨hr, hne, hb, c, hca, hcn, hcr⟩ |
    ⟨hn, hne, hb, c, hca, hcr, hcn⟩
  · exact ⟨hcentre, ⟨a, harm haa, har, hother hbn han⟩, c, harm hca, hcn, hother hbr hcr⟩
  · exact ⟨harm hb, ⟨_, hcentre, hr, hne⟩, c, harm hca, hcn, hother hbr hcr⟩
  · exact ⟨harm hb, ⟨c, harm hca, hcr, hother hbn hcn⟩, _, hcentre, hn, hne⟩

theorem one_lt_size {c : Cluster} (hr : c.isRigid = true) {b v : PointName} (hb : b ∈ c)
    (hv : v ∈ c) (hne : v ≠ b) : 1 < c.size := by
  rw [Cluster.size_of_isRigid hr]
  exact NameSet.two_le_size_iff.2 ⟨v, b, hv, hb, hne⟩

theorem search_ne_none_of_angle {r n : Placed} {h : PlacedHedgehog} {b : PointName}
    (hr : d.OnTop r) (hn : d.OnTop n) (hh : d.OnTop h.placed) (hne : n.id ≠ r.id)
    (hrr : r.cluster.isRigid = true) (hnr : n.cluster.isRigid = true)
    (hb : (r.cluster.shared n.cluster).only? = some b)
    (ha : GivesAngle r.cluster n.cluster b h) :
    d.search r.id ≠ none ∧ d.search n.id ≠ none ∧ d.search h.id ≠ none := by
  have hb' : (n.cluster.shared r.cluster).only? = some b := by rwa [shared_comm]
  obtain ⟨⟨hbr, hbn⟩, -⟩ := only?_shared hb
  obtain ⟨hbh, ⟨v, -, hv, hvb⟩, w, -, hw, hwb⟩ := ha.points hbr hbn
  have hrn := rigidsByAngle?_ne_none hh hb ha
  have hnr' := rigidsByAngle?_ne_none hh hb' ha.symm
  refine ⟨fun hnone => ?_, fun hnone => ?_, fun hnone => ?_⟩
  · rw [search_of_rigid hr hrr] at hnone
    have hmem := mem_neighbours_of_shared hn hne hbr hbn
    exact hrn ((searchRigid_eq_none hnone).2.2.2.2.2.1 n hmem hnr)
  · rw [search_of_rigid hn hnr] at hnone
    have hmem := mem_neighbours_of_shared hr hne.symm hbn hbr
    exact hnr' ((searchRigid_eq_none hnone).2.2.2.2.2.1 r hmem hrr)
  · -- The hedgehog meets the two rigids in either order, so both orders must succeed.
    have hnone' := (search_of_hedgehog hh).symm.trans hnone
    have hkind : ∀ p : Placed, p.cluster.isRigid = true →
        p.cluster.kind ≠ h.placed.cluster.kind := by
      intro p hp
      rw [Cluster.isRigid_iff.1 hp]
      exact fun e => by cases e
    have hmr := mem_neighbours_of_shared hr (hr.id_ne_of_kind hh (hkind r hrr)) hbh hbr
    have hmn := mem_neighbours_of_shared hn (hn.id_ne_of_kind hh (hkind n hnr)) hbh hbn
    have hpq : r ≠ n := fun e => hne (congrArg Placed.id e.symm)
    rcases (searchHedgehog_eq_none hnone').2.2.1 r n hmr hmn hpq hrr (one_lt_size hrr hbr hv hvb)
      hnr (one_lt_size hnr hbn hw hwb) with hcon | hcon
    · exact hrn hcon
    · exact hnr' hcon

theorem search_ne_none_of_extend {source : Placed} {hog : PlacedHedgehog} (hs : d.OnTop source)
    (hh : d.OnTop hog.placed) (hk : source.cluster.kind ≠ .hedgehog)
    (hc : hog.centre ∈ source.cluster) (h : d.extendHedgehog? source hog = some plan) :
    d.search source.id ≠ none ∧ d.search hog.id ≠ none := by
  have hall := extendHedgehogs?_ne_none hh hc h
  constructor
  · intro hnone
    -- The source tries the rule as its last one.
    cases hkind : source.cluster.kind with
    | rigid =>
      rw [search_of_rigid hs (Cluster.isRigid_iff.2 hkind)] at hnone
      exact hall (searchRigid_eq_none hnone).2.2.2.2.2.2
    | hedgehog => exact hk hkind
    | balloon =>
      rw [search_of_balloon hs hkind] at hnone
      exact hall (searchBalloon_eq_none hnone).2.2.2
  · intro hnone
    have hnone' := (search_of_hedgehog hh).symm.trans hnone
    have hmem := mem_neighbours_of_shared hs (hs.id_ne_of_kind hh hk)
      (Cluster.mem_hedgehog.2 (.inl rfl) : hog.centre ∈ hog.placed.cluster) hc
    exact absurd ((searchHedgehog_eq_none hnone').2.2.2.2 _ hmem hk hc) (by simp [h])

theorem search_ne_none_of_triangle {me other : PlacedHedgehog} {c : PointName}
    (hm : d.OnTop me.placed) (ho : d.OnTop other.placed) (hb : other.centre ∈ me.arms)
    (ha : me.centre ∈ other.arms) (hc : c ∈ me.arms ∩ other.arms)
    (h : d.triangleOver? me other c = some plan) :
    d.search me.id ≠ none ∧ d.search other.id ≠ none := by
  constructor
  · intro hnone
    have hnone' := (search_of_hedgehog hm).symm.trans hnone
    exact absurd ((searchHedgehog_eq_none hnone').2.2.2.1 _ _ ho hb ha hc) (by simp [h])
  · intro hnone
    have hnone' := (search_of_hedgehog ho).symm.trans hnone
    have hc' : c ∈ other.arms ∩ me.arms :=
      NameSet.mem_inter.2 (NameSet.mem_inter.1 hc).symm
    have hrule := (searchHedgehog_eq_none hnone').2.2.2.1 _ _ hm ha hb hc'
    have hcov := (triangleOver?_eq_some h).1
    -- Both hedgehogs ask about the same triangle.
    have hsame : NameSet.ofList [other.centre, me.centre, c] =
        NameSet.ofList [me.centre, other.centre, c] :=
      NameSet.ext_mem fun v => by
        simp only [NameSet.mem_ofList, List.mem_cons, List.not_mem_nil, or_false]
        exact or_left_comm
    simp [triangleOver?, hsame, hcov] at hrule

/-- From the side of every participant the search finds something. -/
theorem Finding.search_ne_none {ps : List ClusterId} (h : Finding d ps plan) (hid : id ∈ ps) :
    d.search id ≠ none := by
  have hpair : ∀ {x y : ClusterId}, (d.search x ≠ none ∧ d.search y ≠ none) → id ∈ [x, y] →
      d.search id ≠ none := by
    intro x y hxy hmem
    simp only [List.mem_cons, List.not_mem_nil, or_false] at hmem
    rcases hmem with rfl | rfl
    · exact hxy.1
    · exact hxy.2
  have htriple : ∀ {x y z : ClusterId},
      (d.search x ≠ none ∧ d.search y ≠ none ∧ d.search z ≠ none) → id ∈ [x, y, z] →
      d.search id ≠ none := by
    intro x y z hxyz hmem
    rcases List.mem_cons.1 hmem with rfl | hmem
    · exact hxyz.1
    · exact hpair hxyz.2 hmem
  cases h with
  | absorb hc hh h => exact hpair (search_ne_none_of_absorb hc hh h) hid
  | balloonRigid hb hr h => exact hpair (search_ne_none_of_balloonRigid hb hr h) hid
  | pointRigid hm ho hne hr hv h => exact hpair (search_ne_none_of_pointRigid hm ho hne hr hv h) hid
  | rigidRigid hm ho hne hr h => exact hpair (search_ne_none_of_rigidRigid hm ho hne hr h) hid
  | balloons hm ho hne hb h => exact hpair (search_ne_none_of_balloons hm ho hne hb h) hid
  | hedgehogs hm ho hne h => exact hpair (search_ne_none_of_hedgehogs hm ho hne h) hid
  | threeRigids hm h₁ h₂ hne₁ hne₂ hr h =>
    -- Two turns of the triangle bring each of the others to the first place.
    obtain ⟨hr₁, hr₂, hne, -⟩ := threeRigids?_eq_some h
    obtain ⟨plan₁, hp₁⟩ := threeRigids?_rotate hr hne₂ h
    obtain ⟨plan₂, hp₂⟩ := threeRigids?_rotate hr₁ hne₁.symm hp₁
    exact htriple ⟨search_ne_none_of_threeRigids hm h₁ h₂ hne₁ hne₂ hr h,
      search_ne_none_of_threeRigids h₁ h₂ hm hne hne₁.symm hr₁ hp₁,
      search_ne_none_of_threeRigids h₂ hm h₁ hne₂.symm hne.symm hr₂ hp₂⟩ hid
  | angleBetween hr hn hh hne hrr hnr hb hcentre ha hc =>
    exact htriple (search_ne_none_of_angle hr hn hh hne hrr hnr hb
      (givesAngle_between hcentre ha hc)) hid
  | angleBeside hr hn hh hne hrr hnr hb hsides hcentre hcb hba hc =>
    exact htriple (search_ne_none_of_angle hr hn hh hne hrr hnr hb
      (givesAngle_beside (hsides.imp (fun h => ⟨h.1, h.2.1⟩) fun h => ⟨h.1, h.2.1⟩) hcentre hcb hba
        hc)) hid
  | extend hs hh hk hc h => exact hpair (search_ne_none_of_extend hs hh hk hc h) hid
  | triangle hm ho hb ha hc h => exact hpair (search_ne_none_of_triangle hm ho hb ha hc h) hid

theorem Finding.exists_mem {ps : List ClusterId} (h : Finding d ps plan) : ∃ id, id ∈ ps := by
  cases h <;> exact ⟨_, List.mem_cons_self⟩

/-- A decomposition is saturated when no rule applies. -/
theorem saturated_iff : d.Saturated ↔ ∀ ps plan, ¬Finding d ps plan := by
  constructor
  · intro hs ps plan hf
    obtain ⟨id, hid⟩ := hf.exists_mem
    exact hf.search_ne_none hid (hs id (hf.mem_topLevel hid))
  · intro hno id hid
    refine Option.eq_none_iff_forall_ne_some.2 fun plan hplan => ?_
    obtain ⟨ps, hf⟩ := finding_of_search hid hplan
    exact hno ps plan hf

end Decomposition

end PlanarSketch
