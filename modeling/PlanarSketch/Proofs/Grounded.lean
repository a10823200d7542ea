/-
The invariants of a decomposition.

A decomposition is *grounded* when its clusters are valid and every merge
stands on clusters in use: its inputs and its output exist, the output is
younger than the inputs, and it is the output of no other merge.  It is
*settled* when the top level consists of the clusters that no merge took off
it.  Both hold between operations.  In the middle of one, some clusters may
wait to return to the top level, and a derived hedgehog may be exposed there
until the merge that it was derived for takes it off; `Settled` lists the two
kinds of exceptions.

* `Grounded`, `Settled`: the invariants, and `Sound` for both without exceptions;
* `Grounded.insertCluster`, `Grounded.addMerge`, `Settled.addMerge`: what
  taking in clusters and merges keeps.
-/
import PlanarSketch.Decomposition.Removal
import PlanarSketch.Proofs.Clusters

namespace PlanarSketch

namespace Decomposition

variable {d d' : Decomposition} {id : ClusterId}

/-! ### Look-ups -/

/-- The cluster is in use. -/
def Live (d : Decomposition) (id : ClusterId) : Prop := id ∈ d.clusters.keys

theorem live_iff : d.Live id ↔ ∃ c, d.cluster? id = some c := by
  unfold Live
  rw [Registry.mem_keys_iff]
  constructor
  · rintro ⟨n, hn⟩
    exact ⟨n.cluster, Option.map_eq_some_iff.2 ⟨n, hn, rfl⟩⟩
  · rintro ⟨c, hc⟩
    obtain ⟨n, hn, -⟩ := Option.map_eq_some_iff.1 hc
    exact ⟨n, hn⟩

theorem live_of_cluster? {c : Cluster} (h : d.cluster? id = some c) : d.Live id := live_iff.2 ⟨c, h⟩

theorem live_congr (h : d'.cluster? id = d.cluster? id) : d'.Live id ↔ d.Live id := by
  rw [live_iff, live_iff, h]

theorem isTopLevel_iff : d.isTopLevel id = true ↔ id ∈ d.topLevel := OrderedSet.contains_iff

/-- Some merge took the cluster off the top level. -/
def Consumed (d : Decomposition) (id : ClusterId) : Prop :=
  ∃ k m, d.merges.find? k = some m ∧ id ∈ m.consumed

theorem isNeeded_iff : d.isNeeded id = true ↔ d.Consumed id := by
  simp only [isNeeded, List.any_eq_true, decide_eq_true_eq]
  constructor
  · rintro ⟨m, hm, hid⟩
    obtain ⟨k, hk⟩ := Registry.mem_values_iff.1 hm
    exact ⟨k, m, hk, hid⟩
  · rintro ⟨k, m, hk, hid⟩
    exact ⟨m, Registry.mem_values_iff.2 ⟨k, hk⟩, hid⟩

theorem mem_consumers_iff {k : MergeId} :
    k ∈ d.consumers id ↔ ∃ m, d.merges.find? k = some m ∧ id ∈ m.inputs := by
  simp only [consumers, List.mem_map, List.mem_filter, decide_eq_true_eq]
  constructor
  · rintro ⟨⟨j, m⟩, ⟨hm, hid⟩, rfl⟩
    exact ⟨m, Registry.find?_eq_some.2 hm, hid⟩
  · rintro ⟨m, hm, hid⟩
    exact ⟨(k, m), ⟨Registry.find?_eq_some.1 hm, hid⟩, rfl⟩

/-- The merge found for a cluster has it as its output. -/
theorem find?_of_determining? {k : MergeId} (h : d.determining? id = some k) :
    ∃ m, d.merges.find? k = some m ∧ m.output = id := by
  obtain ⟨⟨j, m⟩, he, rfl⟩ := Option.map_eq_some_iff.1 h
  have hout : m.output = id := by simpa using List.find?_some he
  exact ⟨m, Registry.find?_eq_some.2 (List.mem_of_find?_eq_some he), hout⟩

theorem determining?_eq_none : d.determining? id = none ↔
    ∀ k m, d.merges.find? k = some m → m.output ≠ id := by
  simp only [determining?, Option.map_eq_none_iff, List.find?_eq_none, decide_eq_true_eq]
  constructor
  · intro h k m hk
    exact h (k, m) (Registry.find?_eq_some.1 hk)
  · intro h e he
    exact h e.1 e.2 (Registry.find?_eq_some.2 he)

end Decomposition

/-! ### The invariants -/

/-- A merge stands on clusters in use and consumes either all its inputs or, if it only derives a
hedgehog, none. -/
structure Merge.StandsIn (m : Merge) (d : Decomposition) : Prop where
  inputs : ∀ id ∈ m.inputs, d.Live id
  output : d.Live m.output
  younger : ∀ id ∈ m.inputs, id.serial < m.output.serial
  consumption : m.consumed = if m.rule.isDerivation then [] else m.inputs

theorem Merge.StandsIn.mem_inputs {m : Merge} {d : Decomposition} (h : m.StandsIn d)
    {id : ClusterId} (hid : id ∈ m.consumed) : m.rule.isDerivation = false ∧ id ∈ m.inputs := by
  rw [h.consumption] at hid
  split at hid
  · simp at hid
  · rename_i hr
    exact ⟨by simpa using hr, hid⟩

namespace Decomposition

variable {d d' : Decomposition} {id : ClusterId}

/-- Clusters are valid, their points are known, and merges stand on clusters in use. -/
structure Grounded (d : Decomposition) : Prop where
  valid : ∀ id c, d.cluster? id = some c → c.Valid
  points : ∀ v, v ∈ d.points ↔ ∃ id c, d.cluster? id = some c ∧ v ∈ c
  top : ∀ id ∈ d.topLevel, d.Live id
  merge : ∀ k m, d.merges.find? k = some m → m.StandsIn d
  outputOnce : ∀ k₁ k₂ m₁ m₂, d.merges.find? k₁ = some m₁ → d.merges.find? k₂ = some m₂ →
    m₁.output = m₂.output → k₁ = k₂

/-- The top level is what no merge consumed, apart from clusters that wait to return there; and no
derived hedgehog is on it, apart from those that are exposed. -/
structure Settled (d : Decomposition) (waiting exposed : List ClusterId) : Prop where
  consumedOnce : ∀ k₁ k₂ m₁ m₂ id, d.merges.find? k₁ = some m₁ → d.merges.find? k₂ = some m₂ →
    id ∈ m₁.consumed → id ∈ m₂.consumed → k₁ = k₂
  free : ∀ id ∈ waiting, ¬d.Consumed id
  frontier : ∀ id, d.Live id → id ∉ waiting → (id ∈ d.topLevel ↔ ¬d.Consumed id)
  hidden : ∀ k m, d.merges.find? k = some m → m.rule.isDerivation = true → m.output ∉ exposed →
    m.output ∉ d.topLevel

/-- Both invariants without exceptions, as between operations. -/
structure Sound (d : Decomposition) : Prop where
  grounded : d.Grounded
  settled : d.Settled [] []

theorem sound_empty : Sound empty where
  grounded :=
    { valid := fun _ _ h => by simp [empty, cluster?, Registry.find?, Registry.empty,
        OrderedMap.find?, OrderedMap.empty, OrderedMap.lookup] at h
      points := fun v => by simp [empty, cluster?, Registry.find?, Registry.empty,
        OrderedMap.find?, OrderedMap.empty, OrderedMap.lookup]
      top := fun id h => absurd h (OrderedSet.not_mem_empty id)
      merge := fun _ _ h => by cases h
      outputOnce := fun _ _ _ _ h => by cases h }
  settled :=
    { consumedOnce := fun _ _ _ _ _ h => by cases h
      free := fun _ h => by cases h
      frontier := fun id h => by cases h
      hidden := fun _ _ h => by cases h }

/-- The root marks, the worklist and the journal play no part in the invariants. -/
theorem Grounded.congr (h : d.Grounded) (hc : ∀ id, d'.cluster? id = d.cluster? id)
    (hm : d'.merges = d.merges) (ht : d'.topLevel = d.topLevel) (hp : d'.points = d.points) :
    d'.Grounded := by
  -- The same clusters are live, and the other fields read the same.
  have hl : ∀ id, d'.Live id ↔ d.Live id := by
    intro id
    rw [live_iff, live_iff, hc]
  constructor
  · intro id c hid
    rw [hc] at hid
    exact h.valid id c hid
  · intro v
    rw [hp, h.points]
    simp only [hc]
  · intro id hid
    rw [ht] at hid
    exact (hl id).2 (h.top id hid)
  · intro k m hk
    rw [hm] at hk
    obtain ⟨h₁, h₂, h₃, h₄⟩ := h.merge k m hk
    exact ⟨fun id hid => (hl id).2 (h₁ id hid), (hl _).2 h₂, h₃, h₄⟩
  · rw [hm]
    exact h.outputOnce

theorem Settled.congr {waiting exposed : List ClusterId} (h : d.Settled waiting exposed)
    (hl : ∀ id, d'.Live id ↔ d.Live id) (hm : d'.merges = d.merges)
    (ht : d'.topLevel = d.topLevel) : d'.Settled waiting exposed := by
  have hcons : ∀ id, d'.Consumed id ↔ d.Consumed id := by
    intro id
    unfold Consumed
    rw [hm]
  constructor
  · rw [hm]
    exact h.consumedOnce
  · intro id hid
    rw [hcons]
    exact h.free id hid
  · intro id hid hw
    rw [ht, hcons]
    exact h.frontier id ((hl id).1 hid) hw
  · rw [hm, ht]
    exact h.hidden

theorem Sound.congr (h : d.Sound) (hc : ∀ id, d'.cluster? id = d.cluster? id)
    (hm : d'.merges = d.merges) (ht : d'.topLevel = d.topLevel) (hp : d'.points = d.points) :
    d'.Sound :=
  ⟨h.grounded.congr hc hm ht hp,
    h.settled.congr (fun id => by rw [live_iff, live_iff, hc]) hm ht⟩

/-- With at most one merge per output, a cluster is derived when a derivation has it as its
output. -/
theorem Grounded.isDerived_iff (h : d.Grounded) : d.isDerived id = true ↔
    ∃ k m, d.merges.find? k = some m ∧ m.output = id ∧ m.rule.isDerivation = true := by
  simp only [isDerived, Option.any_eq_true, Option.bind_eq_some_iff]
  constructor
  · rintro ⟨m, ⟨k, hk, hm⟩, hr⟩
    obtain ⟨m', hm', hout⟩ := find?_of_determining? hk
    rw [hm] at hm'
    obtain rfl := Option.some_inj.1 hm'
    exact ⟨k, m, hm, hout, hr⟩
  · rintro ⟨k, m, hm, hout, hr⟩
    obtain ⟨j, hj⟩ : ∃ j, d.determining? id = some j := by
      rw [← Option.isSome_iff_exists, Option.isSome_iff_ne_none]
      intro hn
      exact determining?_eq_none.1 hn k m hm hout
    -- The first merge found with this output is the only one.
    obtain ⟨m', hm', hout'⟩ := find?_of_determining? hj
    obtain rfl := h.outputOnce j k m' m hm' hm (hout'.trans hout.symm)
    exact ⟨m, ⟨j, hj, hm⟩, hr⟩

/-! ### Taking in clusters -/

theorem cluster?_insertCluster (node : ClusterNode) {c : Cluster} :
    (d.insertCluster node).2.cluster? id = some c ↔
      d.cluster? id = some c ∨ id = d.clusters.nextKey ∧ c = node.cluster := by
  show ((d.clusters.insert node).find? id).map ClusterNode.cluster = some c ↔ _
  unfold cluster?
  simp only [Option.map_eq_some_iff, Registry.find?_insert_eq_some]
  constructor
  · rintro ⟨n, hn | ⟨hid, rfl⟩, hc⟩
    · exact .inl ⟨n, hn, hc⟩
    · exact .inr ⟨hid, hc.symm⟩
  · rintro (⟨n, hn, hc⟩ | ⟨hid, hc⟩)
    · exact ⟨n, .inl hn, hc⟩
    · exact ⟨node, .inr ⟨hid, rfl⟩, hc.symm⟩

theorem live_insertCluster (node : ClusterNode) :
    (d.insertCluster node).2.Live id ↔ d.Live id ∨ id = d.clusters.nextKey := by
  show id ∈ (d.clusters.insert node).keys ↔ _
  rw [Registry.keys_insert, List.mem_append, List.mem_singleton]
  rfl

theorem mem_points_insertCluster {node : ClusterNode} {v : PointName} :
    v ∈ (d.insertCluster node).2.points ↔ v ∈ d.points ∨ v ∈ node.cluster :=
  OrderedSet.mem_insertMany

/-- A new valid cluster keeps a decomposition grounded. -/
theorem Grounded.insertCluster (h : d.Grounded) {node : ClusterNode} (hv : node.cluster.Valid) :
    (d.insertCluster node).2.Grounded := by
  constructor
  · intro id c hc
    rcases (cluster?_insertCluster node).1 hc with hc | ⟨-, rfl⟩
    · exact h.valid id c hc
    · exact hv
  · intro v
    rw [mem_points_insertCluster, h.points]
    constructor
    · rintro (⟨id, c, hc, hcv⟩ | hn)
      · exact ⟨id, c, (cluster?_insertCluster node).2 (.inl hc), hcv⟩
      · exact ⟨_, _, (cluster?_insertCluster node).2 (.inr ⟨rfl, rfl⟩), hn⟩
    · rintro ⟨id, c, hc, hcv⟩
      rcases (cluster?_insertCluster node).1 hc with hc | ⟨-, rfl⟩
      · exact .inl ⟨id, c, hc, hcv⟩
      · exact .inr hcv
  · intro id hid
    rcases OrderedSet.mem_insert.1 hid with rfl | hid
    · exact (live_insertCluster node).2 (.inr rfl)
    · exact (live_insertCluster node).2 (.inl (h.top id hid))
  · intro k m hk
    -- The merges are the old ones, and what was live stays live.
    obtain ⟨h₁, h₂, h₃, h₄⟩ := h.merge k m hk
    exact ⟨fun id hid => (live_insertCluster node).2 (.inl (h₁ id hid)),
      (live_insertCluster node).2 (.inl h₂), h₃, h₄⟩
  · exact h.outputOnce

/-- No merge consumes a cluster that is not in use. -/
theorem Grounded.not_consumed (h : d.Grounded) (hid : ¬d.Live id) : ¬d.Consumed id := by
  rintro ⟨k, m, hk, hm⟩
  have hs := h.merge k m hk
  exact hid (hs.inputs id (hs.mem_inputs hm).2)

theorem not_live_nextKey : ¬d.Live d.clusters.nextKey := d.clusters.nextKey_not_mem_keys

/-- A new cluster is on the top level, and no merge consumes it. -/
theorem Settled.insertCluster {exposed : List ClusterId} (h : d.Settled [] exposed)
    (hg : d.Grounded) {node : ClusterNode} : (d.insertCluster node).2.Settled [] exposed := by
  refine ⟨h.consumedOnce, fun id hid => (by cases hid), fun id hid _ => ?_,
    fun k m hk hr he => ?_⟩
  · have hmem : id ∈ (d.insertCluster node).2.topLevel ↔
        id = d.clusters.nextKey ∨ id ∈ d.topLevel :=
      OrderedSet.mem_insert
    rw [hmem]
    rcases (live_insertCluster node).1 hid with hl | rfl
    · -- An old cluster does not have the new key, so nothing changes for it.
      have hne : id ≠ d.clusters.nextKey := by
        rintro rfl
        exact not_live_nextKey hl
      rw [or_iff_right hne]
      exact h.frontier id hl (by simp)
    · -- Merges take live clusters only, and nothing was live under the new key.
      exact iff_of_true (.inl rfl) (hg.not_consumed not_live_nextKey)
  · intro htop
    rcases OrderedSet.mem_insert.1 htop with hout | hout
    · exact not_live_nextKey (hout ▸ (hg.merge k m hk).output)
    · exact h.hidden k m hk hr he hout

/-! ### Taking in merges -/

/-- The merge that a draft becomes. -/
def mergeFor (d : Decomposition) (draft : MergeDraft) : Merge where
  rule := draft.rule
  inputs := draft.inputs
  consumed := draft.consumed
  output := d.clusters.nextKey
  consistent := d.consistentInputs draft.inputs
  overconstrained := draft.redundant && !d.consistentInputs draft.inputs
  geometry := draft.geometry
  prototypeConstraints := draft.prototypeConstraints

/-- The node of the output that a draft asks for. -/
def outputFor (d : Decomposition) (draft : MergeDraft) : ClusterNode where
  cluster := draft.output
  overconstrained := (d.mergeFor draft).overconstrained || draft.inputs.any d.isOverconstrained
  holdsRoot := draft.output.isRigid && d.someHoldsRoot draft.inputs

/-- Adding a merge is adding its output, then the merge itself. -/
theorem addMerge_eq (d : Decomposition) (draft : MergeDraft) :
    d.addMerge draft = (d.clusters.nextKey,
      { (d.insertCluster (d.outputFor draft)).2 with
        merges := d.merges.insert (d.mergeFor draft)
        chart := (d.insertCluster (d.outputFor draft)).2.chart.drawMerge d.merges.nextKey
          (d.mergeFor draft)
        topLevel := draft.consumed.foldl OrderedSet.erase (d.topLevel.insert d.clusters.nextKey) }
      |>.record (.mergeAdded d.merges.nextKey)) :=
  rfl

variable {draft : MergeDraft}

theorem cluster?_addMerge {c : Cluster} : (d.addMerge draft).2.cluster? id = some c ↔
    d.cluster? id = some c ∨ id = d.clusters.nextKey ∧ c = draft.output :=
  cluster?_insertCluster (d.outputFor draft)

theorem live_addMerge :
    (d.addMerge draft).2.Live id ↔ d.Live id ∨ id = d.clusters.nextKey :=
  live_insertCluster (d.outputFor draft)

theorem find?_addMerge {k : MergeId} {m : Merge} : (d.addMerge draft).2.merges.find? k = some m ↔
    d.merges.find? k = some m ∨ k = d.merges.nextKey ∧ m = d.mergeFor draft := by
  rw [addMerge_eq]
  exact Registry.find?_insert_eq_some

theorem mem_topLevel_addMerge : id ∈ (d.addMerge draft).2.topLevel ↔
    (id = d.clusters.nextKey ∨ id ∈ d.topLevel) ∧ id ∉ draft.consumed := by
  show id ∈ draft.consumed.foldl OrderedSet.erase (d.topLevel.insert d.clusters.nextKey) ↔ _
  rw [OrderedSet.mem_foldl_erase, OrderedSet.mem_insert]

theorem consumed_addMerge :
    (d.addMerge draft).2.Consumed id ↔ d.Consumed id ∨ id ∈ draft.consumed := by
  simp only [Consumed, find?_addMerge]
  constructor
  · rintro ⟨k, m, hk | ⟨-, rfl⟩, hid⟩
    · exact .inl ⟨k, m, hk, hid⟩
    · exact .inr hid
  · rintro (⟨k, m, hk, hid⟩ | hid)
    · exact ⟨k, m, .inl hk, hid⟩
    · exact ⟨_, _, .inr ⟨rfl, rfl⟩, hid⟩

/-- A merge of clusters in use with a valid output keeps a decomposition grounded. -/
theorem Grounded.addMerge (h : d.Grounded) (hv : draft.output.Valid)
    (hin : ∀ id ∈ draft.inputs, d.Live id)
    (hc : draft.consumed = if draft.rule.isDerivation then [] else draft.inputs) :
    (d.addMerge draft).2.Grounded := by
  have hi : (d.insertCluster (d.outputFor draft)).2.Grounded := h.insertCluster hv
  refine ⟨hi.valid, hi.points, fun id hid => ?_, fun k m hk => ?_, fun k₁ k₂ m₁ m₂ h₁ h₂ he => ?_⟩
  · rcases mem_topLevel_addMerge.1 hid with ⟨rfl | hid, -⟩
    · exact live_addMerge.2 (.inr rfl)
    · exact live_addMerge.2 (.inl (h.top id hid))
  · rcases find?_addMerge.1 hk with hk | ⟨-, rfl⟩
    · obtain ⟨s₁, s₂, s₃, s₄⟩ := h.merge k m hk
      exact ⟨fun id hid => live_addMerge.2 (.inl (s₁ id hid)), live_addMerge.2 (.inl s₂), s₃, s₄⟩
    · exact ⟨fun id hid => live_addMerge.2 (.inl (hin id hid)), live_addMerge.2 (.inr rfl),
        fun id hid => Registry.serial_lt_nextKey (hin id hid), hc⟩
  · -- The output of the new merge is a new key, the others are in use.
    have hold : ∀ k m, d.merges.find? k = some m → m.output ≠ (d.mergeFor draft).output := by
      intro k m hk hout
      have hlive := (h.merge k m hk).output
      rw [hout] at hlive
      exact not_live_nextKey hlive
    rcases find?_addMerge.1 h₁ with h₁ | ⟨rfl, rfl⟩
    · rcases find?_addMerge.1 h₂ with h₂ | ⟨rfl, rfl⟩
      · exact h.outputOnce k₁ k₂ m₁ m₂ h₁ h₂ he
      · exact absurd he (hold k₁ m₁ h₁)
    · rcases find?_addMerge.1 h₂ with h₂ | ⟨rfl, rfl⟩
      · exact absurd he.symm (hold k₂ m₂ h₂)
      · rfl

/-- A merge that consumes top-level clusters keeps a decomposition settled.  If it derives a
hedgehog, that hedgehog is exposed; the exposed ones that it consumes no longer are. -/
theorem Settled.addMerge {exposed exposed' : List ClusterId} (h : d.Settled [] exposed)
    (hg : d.Grounded) (htop : ∀ id ∈ draft.consumed, id ∈ d.topLevel)
    (hout : draft.rule.isDerivation = true → d.clusters.nextKey ∈ exposed')
    (hexp : ∀ id ∈ exposed, id ∉ draft.consumed → id ∈ exposed') :
    (d.addMerge draft).2.Settled [] exposed' := by
  -- What is consumed now was on the top level, so nothing consumed it before.
  have hfree : ∀ id ∈ draft.consumed, ¬d.Consumed id := by
    intro id hid
    exact (h.frontier id (hg.top id (htop id hid)) (by simp)).1 (htop id hid)
  constructor
  · intro k₁ k₂ m₁ m₂ id h₁ h₂ hc₁ hc₂
    rcases find?_addMerge.1 h₁ with h₁ | ⟨rfl, rfl⟩
    · rcases find?_addMerge.1 h₂ with h₂ | ⟨rfl, rfl⟩
      · exact h.consumedOnce k₁ k₂ m₁ m₂ id h₁ h₂ hc₁ hc₂
      · exact absurd ⟨k₁, m₁, h₁, hc₁⟩ (hfree id hc₂)
    · rcases find?_addMerge.1 h₂ with h₂ | ⟨rfl, rfl⟩
      · exact absurd ⟨k₂, m₂, h₂, hc₂⟩ (hfree id hc₁)
      · rfl
  · intro id hid
    cases hid
  · intro id hid _
    rw [mem_topLevel_addMerge, consumed_addMerge, not_or]
    refine and_congr_left fun _ => ?_
    rcases live_addMerge.1 hid with hl | rfl
    · have hne : id ≠ d.clusters.nextKey := by
        rintro rfl
        exact not_live_nextKey hl
      rw [or_iff_right hne]
      exact h.frontier id hl (by simp)
    · exact iff_of_true (.inl rfl) (hg.not_consumed not_live_nextKey)
  · intro k m hk hr he htop'
    rcases find?_addMerge.1 hk with hk | ⟨rfl, rfl⟩
    · obtain ⟨hout' | hout', hnc⟩ := mem_topLevel_addMerge.1 htop'
      · exact not_live_nextKey (hout' ▸ (hg.merge k m hk).output)
      · exact h.hidden k m hk hr (fun hx => he (hexp _ hx hnc)) hout'
    · exact he (hout hr)

end Decomposition

end PlanarSketch
