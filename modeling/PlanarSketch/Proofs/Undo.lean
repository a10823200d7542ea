/-
Undoing merges keeps the invariants.

Undoing a merge takes out everything that was computed from its output, then
the output, and then returns what the merge consumed.  While this goes on the
consumed clusters wait, and the recursion may return or remove others.  What a
removal leaves is a remnant of what was there: clusters and merges go away,
and those that stay are unchanged.

* `Remnant`, `Undone`: what is left after a removal;
* `undoes_dropMergeWithin`: undoing a merge leaves a sound remnant without the
  merge and its output, by induction on the levels of the recursion;
* `Sound.dropCluster`, `Sound.reroot`: the removals that operations make.
-/
import PlanarSketch.Proofs.Chart

namespace PlanarSketch.Decomposition

variable {d d' d'' : Decomposition} {id : ClusterId} {waiting : List ClusterId}

/-! ### Remnants -/

/-- Every cluster and every merge of `d'` is one of `d`. -/
structure Remnant (d' d : Decomposition) : Prop where
  clusters : ∀ id n, d'.clusters.find? id = some n → d.clusters.find? id = some n
  merges : ∀ k m, d'.merges.find? k = some m → d.merges.find? k = some m
  size : d'.merges.size ≤ d.merges.size

theorem Remnant.refl (d : Decomposition) : d.Remnant d :=
  ⟨fun _ _ h => h, fun _ _ h => h, Nat.le_refl _⟩

theorem Remnant.trans (h : d''.Remnant d') (h' : d'.Remnant d) : d''.Remnant d :=
  ⟨fun id n hn => h'.clusters id n (h.clusters id n hn),
    fun k m hm => h'.merges k m (h.merges k m hm), Nat.le_trans h.size h'.size⟩

theorem Remnant.cluster? (h : d'.Remnant d) {c : Cluster} (hc : d'.cluster? id = some c) :
    d.cluster? id = some c := by
  obtain ⟨n, hn, rfl⟩ := Option.map_eq_some_iff.1 hc
  exact Option.map_eq_some_iff.2 ⟨n, h.clusters id n hn, rfl⟩

theorem Remnant.live (h : d'.Remnant d) (hl : d'.Live id) : d.Live id := by
  obtain ⟨c, hc⟩ := live_iff.1 hl
  exact live_of_cluster? (h.cluster? hc)

theorem Remnant.consumed (h : d'.Remnant d) (hc : d'.Consumed id) : d.Consumed id := by
  obtain ⟨k, m, hk, hid⟩ := hc
  exact ⟨k, m, h.merges k m hk, hid⟩

/-- A remnant is grounded if its merges still have their inputs and outputs. -/
theorem Grounded.restrict (h : d.Grounded) (hr : d'.Remnant d)
    (hp : ∀ v, v ∈ d'.points ↔ ∃ id c, d'.cluster? id = some c ∧ v ∈ c)
    (ht : ∀ id ∈ d'.topLevel, d'.Live id)
    (hm : ∀ k m, d'.merges.find? k = some m → (∀ id ∈ m.inputs, d'.Live id) ∧ d'.Live m.output) :
    d'.Grounded := by
  constructor
  · intro id c hc
    exact h.valid id c (hr.cluster? hc)
  · exact hp
  · exact ht
  · intro k m hk
    obtain ⟨hin, hout⟩ := hm k m hk
    obtain ⟨-, -, hy, hc⟩ := h.merge k m (hr.merges k m hk)
    exact ⟨hin, hout, hy, hc⟩
  · intro k₁ k₂ m₁ m₂ h₁ h₂ he
    exact h.outputOnce k₁ k₂ m₁ m₂ (hr.merges _ _ h₁) (hr.merges _ _ h₂) he

/-- A sound remnant, up to clusters that wait, with its chart. -/
structure Undone (d d' : Decomposition) (waiting : List ClusterId) : Prop where
  grounded : d'.Grounded
  settled : d'.Settled waiting []
  remnant : d'.Remnant d
  drawn : d.Drawn → d'.Drawn

theorem Undone.trans (h : Undone d d' waiting) {waiting' : List ClusterId}
    (h' : Undone d' d'' waiting') : Undone d d'' waiting' :=
  ⟨h'.grounded, h'.settled, h'.remnant.trans h.remnant, fun hd => h'.drawn (h.drawn hd)⟩

/-! ### Taking out one merge -/

/-- Without one of its merges a decomposition stays grounded, and what that merge consumed
waits. -/
theorem eraseMerge_undone (hg : d.Grounded) (hs : d.Settled waiting []) {k : MergeId} {m : Merge}
    (hk : d.merges.find? k = some m) :
    Undone d (d.withoutMerge k) (m.consumed ++ waiting) := by
  have hrem : (d.withoutMerge k).Remnant d := by
    refine ⟨fun _ _ h => h, fun j m' h => (Registry.find?_erase_eq_some.1 h).2, ?_⟩
    have hsize := Registry.size_erase (Registry.mem_keys_of_find? hk)
    show (d.merges.erase k).size ≤ d.merges.size
    omega
  -- Only this merge consumed them, so now no merge does.
  have hfree : ∀ id ∈ m.consumed,
      ¬(d.withoutMerge k).Consumed id := by
    rintro id hid ⟨j, m', hj, hm'⟩
    obtain ⟨hne, hj⟩ := Registry.find?_erase_eq_some.1 hj
    exact hne (hs.consumedOnce k j m m' id hk hj hid hm')
  refine ⟨hg.restrict hrem hg.points hg.top fun j m' hj => ?_, ?_, hrem,
    fun hd => hd.withoutMerge k⟩
  · have hst := hg.merge j m' (hrem.merges j m' hj)
    exact ⟨hst.inputs, hst.output⟩
  · constructor
    · intro k₁ k₂ m₁ m₂ id h₁ h₂
      exact hs.consumedOnce k₁ k₂ m₁ m₂ id (hrem.merges _ _ h₁) (hrem.merges _ _ h₂)
    · intro id hid
      rcases List.mem_append.1 hid with hid | hid
      · exact hfree id hid
      · exact fun hc => hs.free id hid (hrem.consumed hc)
    · intro id hl hw
      rw [List.mem_append, not_or] at hw
      refine (hs.frontier id hl hw.2).trans (not_congr ⟨?_, hrem.consumed⟩)
      rintro ⟨j, m', hj, hm'⟩
      refine ⟨j, m', Registry.find?_erase_eq_some.2 ⟨?_, hj⟩, hm'⟩
      rintro rfl
      rw [hk] at hj
      exact hw.1 (Option.some_inj.1 hj ▸ hm')
    · intro j m' hj
      exact hs.hidden j m' (hrem.merges j m' hj)

/-! ### Taking out one cluster -/

/-- Forgetting points changes nothing but the chart and the set of points, from which those go that
no cluster has. -/
theorem foldl_forgetPoint (l : List PointName) (d : Decomposition) :
    ∃ p chart, l.foldl forgetPoint d = { d with chart := chart, points := p } ∧
      ∀ v, v ∈ p ↔ v ∈ d.points ∧ (v ∈ l → d.hasPoint v = true) := by
  induction l generalizing d with
  | nil => exact ⟨d.points, d.chart, rfl, fun v => by simp⟩
  | cons a rest ih =>
    obtain ⟨p, chart, hp, hv⟩ := ih (d.forgetPoint a)
    -- Forgetting a point leaves the clusters alone, and so the question who has a point.
    have hstep : ∃ q chart, d.forgetPoint a = { d with chart := chart, points := q } ∧
        ∀ v, v ∈ q ↔ v ∈ d.points ∧ (v = a → d.hasPoint v = true) := by
      unfold forgetPoint
      split
      · rename_i ha
        exact ⟨d.points, d.chart, rfl, fun v => ⟨fun h => ⟨h, fun e => e ▸ ha⟩, fun h => h.1⟩⟩
      · rename_i ha
        refine ⟨_, _, rfl, fun v => ?_⟩
        rw [OrderedSet.mem_erase]
        refine and_congr_right fun _ => ⟨fun hne e => absurd e hne, fun h e => ?_⟩
        exact ha (e ▸ h e)
    obtain ⟨q, chart', hq, hqv⟩ := hstep
    rw [hq] at hp hv
    refine ⟨p, chart, by rw [List.foldl_cons, hq, hp], fun v => ?_⟩
    rw [hv, List.mem_cons]
    show v ∈ q ∧ (v ∈ rest → d.hasPoint v = true) ↔ _
    rw [hqv]
    constructor
    · rintro ⟨⟨h₁, h₂⟩, h₃⟩
      exact ⟨h₁, fun h => h.elim h₂ h₃⟩
    · rintro ⟨h₁, h₂⟩
      exact ⟨⟨h₁, fun h => h₂ (.inl h)⟩, fun h => h₂ (.inr h)⟩

theorem discard_eq_self {o : ClusterId} (h : ¬d.Live o) : d.discard o = d := by
  have hn : d.clusters.find? o = none := Registry.find?_eq_none.2 h
  simp [discard, hn]

/-- What discarding a cluster in use leaves. -/
theorem discard_of_find? {o : ClusterId} {node : ClusterNode}
    (h : d.clusters.find? o = some node) :
    ∃ p chart, d.discard o = { d with
        clusters := d.clusters.erase o
        chart := chart
        topLevel := d.topLevel.erase o
        root := if d.root = some o then none else d.root
        points := p
        journal := d.journal ++ [.clusterRemoved o] } ∧
      ∀ v, v ∈ p ↔ v ∈ d.points ∧ (v ∈ node.cluster →
        ∃ id c, id ≠ o ∧ d.cluster? id = some c ∧ v ∈ c) := by
  -- The points are forgotten one after the other, each unless another cluster has it.
  obtain ⟨p, chart, hp, hv⟩ := foldl_forgetPoint node.cluster.points.toList
    { d with
      clusters := d.clusters.erase o
      chart := d.chart.removeVertex (.cluster o)
      topLevel := d.topLevel.erase o
      root := if d.root = some o then none else d.root }
  refine ⟨p, chart, ?_, fun v => ?_⟩
  · simp only [discard, h]
    rw [hp]
    rfl
  · rw [hv]
    refine and_congr_right fun _ => imp_congr Iff.rfl ?_
    rw [hasPoint_iff]
    refine exists_congr fun id => exists_congr fun c => ?_
    show ((d.clusters.erase o).find? id).map ClusterNode.cluster = some c ∧ _ ↔ _
    rw [Registry.find?_erase]
    by_cases he : o = id
    · simp [he]
    · simp [he, Ne.symm he, Decomposition.cluster?]

theorem find?_discard (d : Decomposition) (o : ClusterId) :
    (d.discard o).clusters.find? id = if o = id then none else d.clusters.find? id := by
  cases hn : d.clusters.find? o with
  | none =>
    rw [discard_eq_self (Registry.find?_eq_none.1 hn)]
    split
    · rename_i he
      rw [← he, hn]
    · rfl
  | some node =>
    obtain ⟨p, _, hp, -⟩ := discard_of_find? hn
    rw [hp]
    exact Registry.find?_erase _ _ _

theorem discard_merges (d : Decomposition) (o : ClusterId) : (d.discard o).merges = d.merges := by
  cases hn : d.clusters.find? o with
  | none => rw [discard_eq_self (Registry.find?_eq_none.1 hn)]
  | some node =>
    obtain ⟨p, _, hp, -⟩ := discard_of_find? hn
    rw [hp]

theorem cluster?_discard {o : ClusterId} {c : Cluster} :
    (d.discard o).cluster? id = some c ↔ id ≠ o ∧ d.cluster? id = some c := by
  unfold cluster?
  rw [find?_discard]
  by_cases h : o = id
  · simp [h]
  · simp [h, Ne.symm h]

theorem live_discard {o : ClusterId} : (d.discard o).Live id ↔ id ≠ o ∧ d.Live id := by
  rw [live_iff, live_iff]
  simp only [cluster?_discard, exists_and_left]

theorem Grounded.mem_topLevel_discard (h : d.Grounded) {o : ClusterId} :
    id ∈ (d.discard o).topLevel ↔ id ∈ d.topLevel ∧ id ≠ o := by
  cases hn : d.clusters.find? o with
  | none =>
    have ho : ¬d.Live o := Registry.find?_eq_none.1 hn
    rw [discard_eq_self ho]
    refine ⟨fun hid => ⟨hid, ?_⟩, And.left⟩
    rintro rfl
    exact ho (h.top id hid)
  | some node =>
    obtain ⟨p, _, hp, -⟩ := discard_of_find? hn
    rw [hp]
    exact OrderedSet.mem_erase

theorem Grounded.mem_points_discard (h : d.Grounded) {o : ClusterId} {v : PointName} :
    v ∈ (d.discard o).points ↔ ∃ id c, (d.discard o).cluster? id = some c ∧ v ∈ c := by
  cases hn : d.clusters.find? o with
  | none =>
    rw [discard_eq_self (Registry.find?_eq_none.1 hn)]
    exact h.points v
  | some node =>
    obtain ⟨p, _, hp, hv⟩ := discard_of_find? hn
    have hpv : v ∈ (d.discard o).points ↔ v ∈ p := by rw [hp]
    rw [hpv, hv, h.points]
    simp only [cluster?_discard, and_assoc]
    constructor
    · rintro ⟨⟨id, c, hc, hcv⟩, hother⟩
      -- A point of the discarded cluster stays if another one has it.
      by_cases he : id = o
      · subst he
        have hnode : c = node.cluster := by
          rw [Decomposition.cluster?, hn] at hc
          exact (Option.some_inj.1 hc).symm
        exact hother (hnode ▸ hcv)
      · exact ⟨id, c, he, hc, hcv⟩
    · rintro ⟨id, c, he, hc, hcv⟩
      exact ⟨⟨id, c, hc, hcv⟩, fun _ => ⟨id, c, he, hc, hcv⟩⟩

/-- A cluster that no merge reads or computes can be discarded. -/
theorem discard_undone (hg : d.Grounded) (hs : d.Settled waiting []) {o : ClusterId}
    (ho : ∀ k m, d.merges.find? k = some m → o ∉ m.inputs ∧ m.output ≠ o) :
    Undone d (d.discard o) waiting := by
  have hrem : (d.discard o).Remnant d := by
    refine ⟨fun id n hn => ?_, fun k m hm => ?_, ?_⟩
    · rw [find?_discard] at hn
      split at hn
      · cases hn
      · exact hn
    · rwa [discard_merges] at hm
    · exact Nat.le_of_eq (congrArg Registry.size (discard_merges d o))
  -- The merges are the same, so the same clusters are consumed.
  have hcons : ∀ id, (d.discard o).Consumed id ↔ d.Consumed id := by
    intro id
    unfold Consumed
    rw [discard_merges]
  refine ⟨hg.restrict hrem (fun v => hg.mem_points_discard) (fun id hid => ?_) (fun k m hk => ?_),
    ?_, hrem, fun hd => hd.discard hg ho⟩
  · obtain ⟨hid, hne⟩ := hg.mem_topLevel_discard.1 hid
    exact live_discard.2 ⟨hne, hg.top id hid⟩
  · have hk' := hrem.merges k m hk
    have hst := hg.merge k m hk'
    refine ⟨fun id hid => live_discard.2 ⟨?_, hst.inputs id hid⟩,
      live_discard.2 ⟨(ho k m hk').2, hst.output⟩⟩
    rintro rfl
    exact (ho k m hk').1 hid
  · constructor
    · intro k₁ k₂ m₁ m₂ id h₁ h₂
      exact hs.consumedOnce k₁ k₂ m₁ m₂ id (hrem.merges _ _ h₁) (hrem.merges _ _ h₂)
    · intro id hid
      rw [hcons]
      exact hs.free id hid
    · intro id hl hw
      obtain ⟨hne, hl⟩ := live_discard.1 hl
      rw [hcons, hg.mem_topLevel_discard, and_iff_left hne]
      exact hs.frontier id hl hw
    · intro k m hk hr he htop
      exact hs.hidden k m (hrem.merges k m hk) hr he (hg.mem_topLevel_discard.1 htop).1

/-! ### The recursion -/

/-- A way of undoing merges, on decompositions with a bounded number of merges: it leaves a sound
remnant in which the merge and its output are gone. -/
def Undoes (drop : Decomposition → MergeId → Decomposition) (bound : Nat) : Prop :=
  ∀ d k waiting, d.merges.size ≤ bound → d.Grounded → d.Settled waiting [] →
    Undone d (drop d k) waiting ∧ (drop d k).merges.find? k = none ∧
      ∀ m, d.merges.find? k = some m → ¬(drop d k).Live m.output

variable {drop : Decomposition → MergeId → Decomposition} {bound : Nat}

theorem foldl_drop_undone (h : Undoes drop bound) (ks : List MergeId) (hb : d.merges.size ≤ bound)
    (hg : d.Grounded) (hs : d.Settled waiting []) :
    Undone d (ks.foldl drop d) waiting ∧ ∀ k ∈ ks, (ks.foldl drop d).merges.find? k = none := by
  induction ks generalizing d with
  | nil => exact ⟨⟨hg, hs, .refl d, fun hd => hd⟩, fun k hk => by cases hk⟩
  | cons k rest ih =>
    obtain ⟨hu, hk, -⟩ := h d k waiting hb hg hs
    obtain ⟨hu', hrest⟩ := ih (Nat.le_trans hu.remnant.size hb) hu.grounded hu.settled
    refine ⟨hu.trans hu', fun j hj => ?_⟩
    rcases List.mem_cons.1 hj with rfl | hj
    · -- A merge that is gone stays away.
      refine Option.eq_none_iff_forall_ne_some.2 fun m hm => ?_
      rw [hu'.remnant.merges j m hm] at hk
      cases hk
    · exact hrest j hj

/-- A cluster that is not in use does not have to wait. -/
theorem Settled.of_not_live (h : d.Settled (id :: waiting) []) (hid : ¬d.Live id) :
    d.Settled waiting [] := by
  refine ⟨h.consumedOnce, fun i hi => h.free i (List.mem_cons_of_mem _ hi), fun i hl hw => ?_,
    h.hidden⟩
  refine h.frontier i hl fun hi => ?_
  rcases List.mem_cons.1 hi with rfl | hi
  · exact hid hl
  · exact hw hi

/-- Nor does a cluster that is back on the top level. -/
theorem Settled.of_mem_topLevel (h : d.Settled (id :: waiting) []) (hid : id ∈ d.topLevel) :
    d.Settled waiting [] := by
  refine ⟨h.consumedOnce, fun i hi => h.free i (List.mem_cons_of_mem _ hi), fun i hl hw => ?_,
    h.hidden⟩
  by_cases hi : i = id
  · subst hi
    exact iff_of_true hid (h.free i List.mem_cons_self)
  · exact h.frontier i hl fun hi' => (List.mem_cons.1 hi').elim hi hw

/-- A cluster that waits may return to the top level unless it is a derived hedgehog. -/
theorem return_undone (hg : d.Grounded) (h : d.Settled (id :: waiting) []) (hid : d.Live id)
    (hder : d.isDerived id = false) :
    Undone d (d.returned id) waiting := by
  refine ⟨⟨hg.valid, hg.points, fun i hi => ?_, fun k m hk => ?_, hg.outputOnce⟩, ?_,
    ⟨fun _ _ hn => hn, fun _ _ hm => hm, Nat.le_refl _⟩, fun hd => hd.returned hid⟩
  · rcases OrderedSet.mem_insert.1 hi with rfl | hi
    · exact hid
    · exact hg.top i hi
  · obtain ⟨h₁, h₂, h₃, h₄⟩ := hg.merge k m hk
    exact ⟨h₁, h₂, h₃, h₄⟩
  · refine ⟨h.consumedOnce, fun i hi => h.free i (List.mem_cons_of_mem _ hi), fun i hl hw => ?_,
      fun k m hk hr he htop => ?_⟩
    · show i ∈ d.topLevel.insert id ↔ ¬d.Consumed i
      rw [OrderedSet.mem_insert]
      by_cases hi : i = id
      · subst hi
        exact iff_of_true (.inl rfl) (h.free i List.mem_cons_self)
      · rw [or_iff_right hi]
        refine h.frontier i hl fun hi' => ?_
        rcases List.mem_cons.1 hi' with hi' | hi'
        · exact hi hi'
        · exact hw hi'
    · rcases OrderedSet.mem_insert.1 htop with hout | hout
      · -- The output of a derivation would be a derived hedgehog.
        have hcontra := hg.isDerived_iff.2 ⟨k, m, hk, hout, hr⟩
        rw [hder] at hcontra
        cases hcontra
      · exact h.hidden k m hk hr he hout

/-- Restoring a cluster ends its waiting. -/
theorem restoreWith_undone (h : Undoes drop bound) (hb : d.merges.size ≤ bound) (hg : d.Grounded)
    (hs : d.Settled (id :: waiting) []) : Undone d (restoreWith drop d id) waiting := by
  unfold restoreWith
  split
  · -- Nothing is done to a cluster that is not in use, on the top level or needed.
    rename_i hskip
    refine ⟨hg, ?_, .refl d, fun hd => hd⟩
    by_cases hl : d.Live id
    · have hcont : d.clusters.contains id = true := Registry.contains_iff.2 hl
      have hneed : d.isNeeded id = false := by
        rw [← Bool.not_eq_true, isNeeded_iff]
        exact hs.free id List.mem_cons_self
      rw [hcont, hneed, Bool.or_false, Bool.not_true, Bool.false_or, isTopLevel_iff] at hskip
      exact hs.of_mem_topLevel hskip
    · exact hs.of_not_live hl
  · rename_i hgo
    rw [Bool.or_eq_true, Bool.or_eq_true, not_or, not_or] at hgo
    have hl : d.Live id := by
      have hcont : d.clusters.contains id = true := by simpa using hgo.1.1
      exact Registry.contains_iff.1 hcont
    split
    · rename_i k hk
      split
      · -- A derived hedgehog goes with its derivation.
        obtain ⟨m, hm, hout⟩ := find?_of_determining? hk
        obtain ⟨hu, -, hgone⟩ := h d k (id :: waiting) hb hg hs
        have hnl : ¬(drop d k).Live id := hout ▸ hgone m hm
        exact ⟨hu.grounded, hu.settled.of_not_live hnl, hu.remnant, hu.drawn⟩
      · rename_i hder
        exact return_undone hg hs hl (by simpa using hder)
    · rename_i hk
      refine return_undone hg hs hl ?_
      rw [isDerived, hk]
      rfl

theorem foldl_restoreWith_undone (h : Undoes drop bound) (ids : List ClusterId)
    (hb : d.merges.size ≤ bound) (hg : d.Grounded) (hs : d.Settled (ids ++ waiting) []) :
    Undone d (ids.foldl (restoreWith drop) d) waiting := by
  induction ids generalizing d with
  | nil => exact ⟨hg, hs, .refl d, fun hd => hd⟩
  | cons id rest ih =>
    have hu := restoreWith_undone h hb hg hs
    exact hu.trans (ih (Nat.le_trans hu.remnant.size hb) hu.grounded hu.settled)

/-- A merge that is not there needs no undoing. -/
theorem undone_of_find?_eq_none {k : MergeId} (hg : d.Grounded) (hs : d.Settled waiting [])
    (hk : d.merges.find? k = none) :
    Undone d d waiting ∧ d.merges.find? k = none ∧
      ∀ m, d.merges.find? k = some m → ¬d.Live m.output := by
  refine ⟨⟨hg, hs, .refl d, fun hd => hd⟩, hk, fun m hm => ?_⟩
  rw [hk] at hm
  cases hm

/-- Once a merge and all merges that read its output are gone, no merge has to do with the
output. -/
theorem output_unused {k : MergeId} {m : Merge} (hg : d.Grounded) (hm : d.merges.find? k = some m)
    (h : d'.Remnant d) (hk : d'.merges.find? k = none) (h' : d''.Remnant d')
    (hgone : ∀ j ∈ d'.consumers m.output, d''.merges.find? j = none) (j : MergeId) (m' : Merge)
    (hj : d''.merges.find? j = some m') : m.output ∉ m'.inputs ∧ m'.output ≠ m.output := by
  have hj' := h'.merges j m' hj
  constructor
  · intro hin
    have hnone := hgone j (mem_consumers_iff.2 ⟨m', hj', hin⟩)
    rw [hj] at hnone
    cases hnone
  · intro hout
    -- Only the merge that is gone has this output.
    have hjk := hg.outputOnce j k m' m (h.merges j m' hj') hm hout
    rw [hjk, hk] at hj'
    cases hj'

/-- Undoing a merge leaves a sound remnant without the merge and its output.  Every level of the
recursion has one merge less to deal with. -/
theorem undoes_dropMergeWithin (levels : Nat) : Undoes (dropMergeWithin levels) levels := by
  induction levels with
  | zero =>
    intro d k waiting hb hg hs
    refine undone_of_find?_eq_none hg hs (Option.eq_none_iff_forall_ne_some.2 fun m hm => ?_)
    have hsize := Registry.size_erase (Registry.mem_keys_of_find? hm)
    omega
  | succ levels ih =>
    intro d k waiting hb hg hs
    unfold dropMergeWithin
    split
    · rename_i hk
      exact undone_of_find?_eq_none hg hs hk
    · rename_i m hm
      dsimp only
      -- First the merge itself goes, then the merges above it.
      have h₁ := eraseMerge_undone hg hs hm
      have hb₁ : (d.withoutMerge k).merges.size ≤ levels := by
        have hsize := Registry.size_erase (Registry.mem_keys_of_find? hm)
        show (d.merges.erase k).size ≤ levels
        omega
      have hk₁ : (d.withoutMerge k).merges.find? k = none := by
        show (d.merges.erase k).find? k = none
        rw [Registry.find?_erase, if_pos rfl]
      generalize d.withoutMerge k = d₁ at h₁ hb₁ hk₁ ⊢
      obtain ⟨h₂, hgone⟩ := foldl_drop_undone ih (d₁.consumers m.output) hb₁ h₁.grounded h₁.settled
      have hb₂ := Nat.le_trans h₂.remnant.size hb₁
      -- Now nothing reads the output any more, and nothing else computed it.
      have h₃ := discard_undone h₂.grounded h₂.settled
        (output_unused hg hm h₁.remnant hk₁ h₂.remnant hgone)
      have hb₃ := Nat.le_trans h₃.remnant.size hb₂
      have h₄ := foldl_restoreWith_undone ih m.consumed hb₃ h₃.grounded h₃.settled
      have hrest := h₂.trans (h₃.trans h₄)
      refine ⟨h₁.trans hrest, Option.eq_none_iff_forall_ne_some.2 fun m' hm' => ?_,
        fun m' hm' hl => ?_⟩
      · have hstill := hrest.remnant.merges k m' hm'
        rw [hk₁] at hstill
        cases hstill
      · obtain rfl := Option.some_inj.1 (hm.symm.trans hm')
        exact (live_discard.1 (h₄.remnant.live hl)).1 rfl

theorem undoes_dropMerge (bound : Nat) : Undoes dropMerge bound := by
  intro d k waiting _ hg hs
  exact undoes_dropMergeWithin d.merges.size d k waiting (Nat.le_refl _) hg hs

/-! ### The removals that operations make -/

/-- Undoing what reads a cluster leaves no merge that does. -/
theorem Sound.dropConsumers (h : d.Sound) (id : ClusterId) :
    (d.dropConsumers id).Sound ∧ (d.dropConsumers id).Remnant d ∧
      ∀ k m, (d.dropConsumers id).merges.find? k = some m → id ∉ m.inputs := by
  obtain ⟨hu, hgone⟩ := foldl_drop_undone (undoes_dropMerge d.merges.size) (d.consumers id)
    (Nat.le_refl _) h.grounded h.settled
  refine ⟨⟨hu.grounded, hu.settled⟩, hu.remnant, fun k m hk hin => ?_⟩
  have hnone := hgone k (mem_consumers_iff.2 ⟨m, hu.remnant.merges k m hk, hin⟩)
  exact absurd (hk.symm.trans hnone) (by simp)

/-- Removing an added cluster leaves a sound remnant. -/
theorem Sound.dropCluster (h : d.Sound) (hid : d.determining? id = none) :
    (d.dropCluster id).Sound ∧ (d.dropCluster id).Remnant d := by
  obtain ⟨hs, hrem, hin⟩ := h.dropConsumers id
  have hu := discard_undone hs.grounded hs.settled fun k m hk =>
    ⟨hin k m hk, determining?_eq_none.1 hid k m (hrem.merges k m hk)⟩
  exact ⟨⟨hu.grounded, hu.settled⟩, hu.remnant.trans hrem⟩

theorem Sound.rebuildDependents (h : d.Sound) (id : ClusterId) :
    (d.rebuildDependents id).Sound ∧ (d.rebuildDependents id).Remnant d := by
  obtain ⟨hs, hrem, -⟩ := h.dropConsumers id
  unfold Decomposition.rebuildDependents
  split
  · dsimp only
    split
    · exact ⟨hs.congr (fun _ => rfl) rfl rfl rfl, hrem.clusters, hrem.merges, hrem.size⟩
    · exact ⟨hs, hrem⟩
  · exact ⟨h, .refl d⟩

theorem cluster?_markRoot (mark : Bool) (o : ClusterId) :
    (d.markRoot mark o).cluster? id = d.cluster? id := by
  show ((d.clusters.modify o _).find? id).map ClusterNode.cluster = _
  rw [Registry.find?_modify]
  split
  · rw [Option.map_map]
    rfl
  · rfl

/-- The decomposition with the root mark moved, before any merge is undone. -/
def withRootMark (d : Decomposition) (id : ClusterId) : Decomposition :=
  { (d.root.filter (· ≠ id)).elim d (d.markRoot false) with root := some id }.markRoot true id

theorem reroot_eq (d : Decomposition) (id : ClusterId) : d.reroot id =
    ((d.root.filter (· ≠ id)).elim (d.withRootMark id)
      (d.withRootMark id).rebuildDependents).rebuildDependents id :=
  rfl

theorem cluster?_withRootMark (o : ClusterId) :
    (d.withRootMark o).cluster? id = d.cluster? id := by
  unfold withRootMark
  rw [cluster?_markRoot]
  cases d.root.filter (· ≠ o) with
  | none => rfl
  | some old => exact cluster?_markRoot false old

theorem merges_withRootMark (d : Decomposition) (o : ClusterId) :
    (d.withRootMark o).merges = d.merges := by
  unfold withRootMark
  cases d.root.filter (· ≠ o) <;> rfl

/-- Moving the root mark changes no cluster and no merge. -/
theorem Sound.withRootMark (h : d.Sound) (id : ClusterId) : (d.withRootMark id).Sound := by
  refine h.congr (fun _ => cluster?_withRootMark id) (merges_withRootMark d id) ?_ ?_ <;>
    · unfold Decomposition.withRootMark
      cases d.root.filter (· ≠ id) <;> rfl

/-- Changing the root leaves a sound remnant of the decomposition with the mark moved. -/
theorem Sound.reroot (h : d.Sound) (id : ClusterId) :
    (d.reroot id).Sound ∧ (d.reroot id).Remnant (d.withRootMark id) := by
  have hm := h.withRootMark id
  rw [reroot_eq]
  cases d.root.filter (· ≠ id) with
  | none => exact hm.rebuildDependents id
  | some old =>
    obtain ⟨h₁, r₁⟩ := hm.rebuildDependents old
    obtain ⟨h₂, r₂⟩ := h₁.rebuildDependents id
    exact ⟨h₂, r₂.trans r₁⟩

end PlanarSketch.Decomposition
