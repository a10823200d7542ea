/-
Adding a cluster reaches a fixpoint.

Only new clusters are ever searched, so that nothing is missed rests on two
facts.  Whoever takes part in a merge finds it, so it is enough that one of
the participants is searched.  And a merge never makes other clusters
mergeable: what a cluster was computed from is settled when it comes into use,
a triangle that is covered stays covered, and everything else that a rule asks
for depends on the participants alone.

* `Finding.backward`: a rule that applies to clusters that were there before
  applied to them before, unless a triangle has lost its cover
  (`Finding.backward_or`);
* `Watched`, `WatchedBut`: every merge that is possible has a participant on
  the worklist, up to exceptions, which the search keeps (`WatchedBut.step`);
* `Watched.process`: so the search ends where no merge is possible.
-/
import PlanarSketch.Proofs.Termination

namespace PlanarSketch

namespace Decomposition

variable {d d' : Decomposition} {id out : ClusterId} {plan : Plan} {ps : List ClusterId}

/-! ### Rules look at their participants -/

theorem absorb?_congr {cover hog : Placed}
    (h : d'.dependsOn hog.id cover.id = d.dependsOn hog.id cover.id) :
    d'.absorb? cover hog = d.absorb? cover hog := by
  unfold absorb?
  rw [h]

theorem extendHedgehog?_congr {source : Placed} {hog : PlacedHedgehog}
    (h : d'.dependsOn hog.id source.id = d.dependsOn hog.id source.id) :
    d'.extendHedgehog? source hog = d.extendHedgehog? source hog := by
  unfold extendHedgehog?
  rw [h]

/-- Of the root marks only the geometry of a plan depends. -/
theorem exists_pointRigid? {me other : Placed} (h : d'.pointRigid? me other = some plan) :
    ∃ plan', d.pointRigid? me other = some plan' := by
  obtain ⟨hr, ⟨hone, -⟩ | ⟨hone, hother, -⟩⟩ := pointRigid?_eq_some h
  · exact ⟨d.joinPoint other me, by simp [pointRigid?, hr, hone]⟩
  · exact ⟨d.joinPoint me other, by simp [pointRigid?, hr, hone, hother]⟩

theorem exists_rigidRigid? {me other : Placed} (h : d'.rigidRigid? me other = some plan) :
    ∃ plan', d.rigidRigid? me other = some plan' := by
  obtain ⟨hr, h2, -⟩ := rigidRigid?_eq_some h
  exact ⟨_, if_pos (by simp [hr, h2])⟩

theorem exists_threeRigids? {me first second : Placed}
    (h : d'.threeRigids? me first second = some plan) :
    ∃ plan', d.threeRigids? me first second = some plan' := by
  obtain ⟨h₁, h₂, hne, p, q, r, hp, hq, hr, hpq, hqr, hrp, -⟩ := threeRigids?_eq_some h
  simp [threeRigids?, h₁, h₂, hne, hp, hq, hr, hpq, hqr, hrp]

/-- Two hedgehogs on the top level of both decompositions span a triangle that is covered in the
first one and not in the second. -/
structure Uncovered (d d' : Decomposition) (me other : PlacedHedgehog) (c : PointName) : Prop where
  before : d.OnTop me.placed ∧ d.OnTop other.placed
  after : d'.OnTop me.placed ∧ d'.OnTop other.placed
  centres : other.centre ∈ me.arms ∧ me.centre ∈ other.arms
  common : c ∈ me.arms ∩ other.arms
  covered : d.covered (.ofList [me.centre, other.centre, c]) = true
  uncovered : d'.covered (.ofList [me.centre, other.centre, c]) = false

/-- A rule that applies to clusters that were on the top level before applied to them before, if
they were computed from the same clusters; or a triangle has lost its cover. -/
theorem Finding.backward_or (h : Finding d' ps plan)
    (hon : ∀ p : Placed, p.id ∈ ps → d'.OnTop p → d.OnTop p)
    (hdep : ∀ id ∈ ps, ∀ source, d'.dependsOn id source = d.dependsOn id source) :
    (∃ plan', Finding d ps plan') ∨ ∃ me other c, d.Uncovered d' me other c := by
  cases h with
  | absorb hc hh h =>
    rw [absorb?_congr (hdep _ (by simp) _)] at h
    exact .inl ⟨_, .absorb (hon _ (by simp) hc) (hon _ (by simp) hh) h⟩
  | balloonRigid hb hr h =>
    exact .inl ⟨_, .balloonRigid (hon _ (by simp) hb) (hon _ (by simp) hr) h⟩
  | pointRigid hm ho hne hr hv h =>
    obtain ⟨plan', h'⟩ := exists_pointRigid? (d := d) h
    exact .inl ⟨plan', .pointRigid (hon _ (by simp) hm) (hon _ (by simp) ho) hne hr hv h'⟩
  | rigidRigid hm ho hne hr h =>
    obtain ⟨plan', h'⟩ := exists_rigidRigid? (d := d) h
    exact .inl ⟨plan', .rigidRigid (hon _ (by simp) hm) (hon _ (by simp) ho) hne hr h'⟩
  | balloons hm ho hne hb h =>
    exact .inl ⟨_, .balloons (hon _ (by simp) hm) (hon _ (by simp) ho) hne hb h⟩
  | @hedgehogs me _ _ hm ho hne h =>
    exact .inl ⟨_, .hedgehogs (hon me.placed (by simp [PlacedHedgehog.placed]) hm)
      (hon _ (by simp) ho) hne h⟩
  | threeRigids hm h₁ h₂ hne₁ hne₂ hr h =>
    obtain ⟨plan', h'⟩ := exists_threeRigids? (d := d) h
    exact .inl ⟨plan', .threeRigids (hon _ (by simp) hm) (hon _ (by simp) h₁) (hon _ (by simp) h₂)
      hne₁ hne₂ hr h'⟩
  | @angleBetween _ _ hog _ _ _ hr hn hh hne hrr hnr hb hcentre ha hc =>
    exact .inl ⟨_, .angleBetween (hon _ (by simp) hr) (hon _ (by simp) hn)
      (hon hog.placed (by simp [PlacedHedgehog.placed]) hh) hne hrr hnr hb hcentre ha hc⟩
  | @angleBeside _ _ hog _ _ _ _ _ _ hr hn hh hne hrr hnr hb hsides hcentre hcb hba hc =>
    exact .inl ⟨_, .angleBeside (hon _ (by simp) hr) (hon _ (by simp) hn)
      (hon hog.placed (by simp [PlacedHedgehog.placed]) hh) hne hrr hnr hb hsides hcentre hcb hba
      hc⟩
  | @extend _ hog _ hs hh hk hc h =>
    rw [extendHedgehog?_congr (hdep _ (by simp) _)] at h
    exact .inl ⟨_, .extend (hon _ (by simp) hs)
      (hon hog.placed (by simp [PlacedHedgehog.placed]) hh) hk hc h⟩
  | @triangle me other c _ hm ho hb ha hc h =>
    -- The only rule that looks at other clusters, and it asks that they cover nothing.
    have hm' := hon me.placed (by simp [PlacedHedgehog.placed]) hm
    have ho' := hon other.placed (by simp [PlacedHedgehog.placed]) ho
    cases hcov : d.covered (NameSet.ofList [me.centre, other.centre, c]) with
    | true =>
      exact .inr ⟨me, other, c, ⟨hm', ho'⟩, ⟨hm, ho⟩, ⟨hb, ha⟩, hc, hcov,
        (triangleOver?_eq_some h).1⟩
    | false => exact .inl ⟨_, .triangle hm' ho' hb ha hc (if_neg (by simp [hcov]))⟩

/-- A rule that applies to clusters that were on the top level before applied to them before, if
they were computed from the same clusters and what was covered still is. -/
theorem Finding.backward (h : Finding d' ps plan)
    (hon : ∀ p : Placed, p.id ∈ ps → d'.OnTop p → d.OnTop p)
    (hdep : ∀ id ∈ ps, ∀ source, d'.dependsOn id source = d.dependsOn id source)
    (hcov : ∀ t, d.covered t = true → d'.covered t = true) : ∃ plan', Finding d ps plan' := by
  rcases h.backward_or hon hdep with hf | ⟨me, other, c, hu⟩
  · exact hf
  · have hcov' := hcov _ hu.covered
    rw [hu.uncovered] at hcov'
    cases hcov'

/-- The worklist and the journal play no part in the rules. -/
theorem Finding.congr (h : Finding d' ps plan) (hc : d'.clusters = d.clusters)
    (hm : d'.merges = d.merges) (ht : d'.topLevel = d.topLevel) : ∃ plan', Finding d ps plan' := by
  have hon : ∀ p, d'.OnTop p ↔ d.OnTop p := by
    intro p
    simp only [OnTop, cluster?, hc, ht]
  refine h.backward (fun p _ hp => (hon p).1 hp) (fun id _ source => ?_) fun t hcov => ?_
  · unfold dependsOn
    rw [hm]
  · obtain ⟨p, hp, hk, hv⟩ := covered_iff.1 hcov
    exact covered_iff.2 ⟨p, (hon p).2 hp, hk, hv⟩

/-! ### New clusters -/

/-- A merge that is possible after another one involves its output or was possible before. -/
theorem Carried.finding (hc : d.Carried plan out d') (hg : d.Grounded) (hp : plan.Sound d)
    {plan' : Plan} (h : Finding d' ps plan') (hout : out ∉ ps) : ∃ plan'', Finding d ps plan'' := by
  obtain ⟨new, hgrown, -⟩ := hc.grown
  refine h.backward (fun p hid hon => ?_) (fun id hid source => ?_) fun t => hc.covered hg hp
  · rcases hc.onTop_cases hg hon with hon | rfl
    · exact hon
    · exact absurd hid hout
  · rcases hc.mem_topLevel.1 (h.mem_topLevel hid) with ⟨ht, -⟩ | rfl
    · exact hgrown.dependsOn_eq (hg.top _ ht) source
    · exact absurd hid hout

/-- What is on the top level after a cluster was taken in was there before or is the new one. -/
theorem onTop_receive_cases {c : Cluster} {p : Placed} (hp : (d.receive c).2.OnTop p) :
    d.OnTop p ∨ p = ⟨d.clusters.nextKey, c⟩ := by
  rcases (cluster?_insertCluster ⟨c, false, false⟩).1 hp.2 with hc | ⟨he, -⟩
  · refine .inl ⟨(OrderedSet.mem_insert.1 hp.1).resolve_left fun he => ?_, hc⟩
    exact not_live_nextKey (he ▸ live_of_cluster? hc)
  · refine .inr (hp.eq_of_id ⟨?_, ?_⟩ he)
    · exact OrderedSet.mem_insert.2 (.inl rfl)
    · exact (cluster?_insertCluster ⟨c, false, false⟩).2 (.inr ⟨rfl, rfl⟩)

/-- A merge that is possible after a cluster was taken in involves it or was possible before. -/
theorem finding_of_receive {c : Cluster} (h : Finding (d.receive c).2 ps plan)
    (hnew : d.clusters.nextKey ∉ ps) : ∃ plan', Finding d ps plan' := by
  refine h.backward (fun p hid hon => ?_) (fun _ _ _ => rfl) fun t hcov => ?_
  · rcases onTop_receive_cases hon with hp | rfl
    · exact hp
    · exact absurd hid hnew
  · obtain ⟨p, hp, hk, hv⟩ := covered_iff.1 hcov
    refine covered_iff.2 ⟨p, ⟨OrderedSet.mem_insert.2 (.inr hp.1), ?_⟩, hk, hv⟩
    exact (cluster?_insertCluster ⟨c, false, false⟩).2 (.inl hp.2)

/-! ### The worklist watches all merges -/

/-- Every merge that is possible has a participant on the worklist. -/
def Watched (d : Decomposition) : Prop :=
  ∀ ps plan, Finding d ps plan → ∃ id ∈ ps, id ∈ d.worklist

/-- Every merge that is possible has a participant on the worklist, or `Q` holds of its
participants. -/
def WatchedBut (Q : List ClusterId → Prop) (d : Decomposition) : Prop :=
  ∀ ps plan, Finding d ps plan → (∃ id ∈ ps, id ∈ d.worklist) ∨ Q ps

/-- Searching the first cluster of the worklist misses nothing. -/
theorem WatchedBut.step {Q : List ClusterId → Prop} {rest : List ClusterId} (h : d.WatchedBut Q)
    (hd : d.Sound) (hw : d.worklist = id :: rest) :
    ({ d with worklist := rest }.processStep id).WatchedBut Q := by
  have hold : ∀ {ps plan}, Finding { d with worklist := rest } ps plan →
      (∃ j ∈ ps, j = id ∨ j ∈ rest) ∨ Q ps := by
    intro ps plan hf
    obtain ⟨plan', hf'⟩ := hf.congr (d := d) rfl rfl rfl
    have hwatched := h ps plan' hf'
    simpa only [hw, List.mem_cons] using hwatched
  have hsound := hd.withWorklist rest
  rcases hsound.processStep_cases id with ⟨he, hnone⟩ | ⟨ps₀, plan, out, d', hf₀, hc, he⟩
  · rw [he]
    intro ps plan hf
    -- Nothing was found for the searched cluster, so it takes part in no merge.
    obtain ⟨j, hj, rfl | hjr⟩ | hq := hold hf
    · exact absurd (hnone (hf.mem_topLevel hj)) (hf.search_ne_none hj)
    · exact .inl ⟨j, hj, hjr⟩
    · exact .inr hq
  · rw [he]
    intro ps plan' hf
    obtain ⟨plan₁, hf₁⟩ := hf.congr (d := d') rfl rfl rfl
    by_cases hout : out ∈ ps
    · exact .inl ⟨out, hout, List.mem_append_right _ List.mem_cons_self⟩
    · obtain ⟨plan₂, hf₂⟩ := hc.finding hsound.grounded (hf₀.sound hsound.grounded) hf₁ hout
      obtain ⟨j, hj, rfl | hjr⟩ | hq := hold hf₂
      · -- The searched cluster is searched again, since it is still on the top level.
        refine .inl ⟨j, hj, List.mem_append_right _ (List.mem_cons_of_mem _ ?_)⟩
        rw [if_pos (hf₁.mem_topLevel hj)]
        exact List.mem_singleton_self j
      · exact .inl ⟨j, hj, List.mem_append_left _ hjr⟩
      · exact .inr hq

/-- When the search ends, only the exceptions are left. -/
theorem WatchedBut.process {Q : List ClusterId → Prop} (h : d.WatchedBut Q) (hd : d.Sound)
    (hf : Finding d.process ps plan) : Q ps := by
  have hboth := processWithin_induction (P := fun d => d.Sound ∧ d.WatchedBut Q)
    (fun d id rest hw hP => ⟨((hP.1.withWorklist rest).processStep_measure id).1,
      hP.2.step hP.1 hw⟩) d.searchBudget ⟨hd, h⟩
  refine (hboth.2 ps plan hf).resolve_left fun ⟨id, _, hid⟩ => ?_
  have hnil : (processWithin d.searchBudget d).worklist = [] := hd.searchEnds.1
  rw [hnil] at hid
  cases hid

theorem Saturated.receive (h : d.Saturated) (c : Cluster) : (d.receive c).2.Watched := by
  intro ps plan hf
  by_cases hnew : d.clusters.nextKey ∈ ps
  · exact ⟨_, hnew, List.mem_append_right _ (List.mem_singleton_self _)⟩
  · obtain ⟨plan', hf'⟩ := finding_of_receive hf hnew
    exact absurd hf' (saturated_iff.1 h ps plan')

theorem Saturated.withoutJournal (h : d.Saturated) : d.withoutJournal.Saturated := by
  refine saturated_iff.2 fun ps plan hf => ?_
  obtain ⟨plan', hf'⟩ := hf.congr (d := d) rfl rfl rfl
  exact saturated_iff.1 h ps plan' hf'

/-- The search ends with a saturated decomposition if all possible merges are watched. -/
theorem Watched.process (h : d.Watched) (hd : d.Sound) : d.process.Saturated :=
  saturated_iff.2 fun _ _ hf =>
    WatchedBut.process (Q := fun _ => False) (fun ps plan hf => .inl (h ps plan hf)) hd hf

/-- A cluster in use stays the same cluster during the search. -/
theorem Sound.cluster?_process (h : d.Sound) {c : Cluster} (hc : d.cluster? id = some c) :
    d.process.cluster? id = some c := by
  refine (h.process_of_carried (P := fun d => d.cluster? id = some c) (fun _ _ hc => hc)
    (fun _ _ _ _ _ _ hc _ hcar => ?_) hc).2
  obtain ⟨new, hgrown, -⟩ := hcar.grown
  exact hgrown.clusters id c hc

theorem saturated_empty : empty.Saturated := fun id hid => absurd hid (OrderedSet.not_mem_empty id)

end Decomposition

namespace Solver

/-! ### All runs -/

/-- Adding to a saturated decomposition gives a saturated one, which has the new cluster if that is
valid. -/
theorem saturated_perform_add {s : Solver} (hr : s.decomposition.Reachable)
    (hs : s.decomposition.Saturated) (c : Cluster) :
    (s.perform (.add c)).decomposition.Saturated ∧
      (c.Valid → ∃ id, (s.perform (.add c)).decomposition.cluster? id = some c) := by
  rw [decomposition_add]
  cases ha : s.decomposition.add c with
  | error e =>
    refine ⟨hs, fun hc => ?_⟩
    rw [hr.sound.add_eq_ok.2 ⟨hc, rfl, rfl⟩] at ha
    cases ha
  | ok r =>
    obtain ⟨hc, -, hd⟩ := hr.sound.add_eq_ok.1 ha
    dsimp only
    rw [hd]
    have hsound := hr.sound.receive hc
    refine ⟨((hs.receive c).process hsound).withoutJournal, fun _ => ?_⟩
    refine ⟨s.decomposition.clusters.nextKey, hsound.cluster?_process ?_⟩
    exact (Decomposition.cluster?_insertCluster ⟨c, false, false⟩).2 (.inr ⟨rfl, rfl⟩)

/-- A solver to which clusters have only been added is saturated. -/
theorem saturated_run_adds (config : SolverConfig) (cs : List Cluster) :
    (run config (cs.map .add)).decomposition.Saturated := by
  have hstart : (withConfig config).decomposition.Saturated := Decomposition.saturated_empty
  have hreach : (withConfig config).decomposition.Reachable := .empty
  unfold run
  generalize withConfig config = s at hstart hreach ⊢
  induction cs generalizing s with
  | nil => exact hstart
  | cons c rest ih =>
    exact ih (s.perform (.add c)) (saturated_perform_add hreach hstart c).1
      (reachable_perform hreach (.add c))

/-- Whenever a run has led to a saturated solver, adding a valid cluster leads to a saturated solver
again, which has the cluster; and a solver to which clusters have only been added is always
saturated. -/
theorem saturated_add (config : SolverConfig) :
    (∀ (ops : List Operation) (c : Cluster), (run config ops).decomposition.Saturated → c.Valid →
      (run config (ops ++ [.add c])).decomposition.Saturated ∧
        ∃ id, (run config (ops ++ [.add c])).decomposition.cluster? id = some c) ∧
      ∀ cs : List Cluster, (run config (cs.map .add)).decomposition.Saturated := by
  refine ⟨fun ops c hs hc => ?_, saturated_run_adds config⟩
  rw [run_concat]
  obtain ⟨hsat, hnew⟩ := saturated_perform_add (reachable_run config ops) hs c
  exact ⟨hsat, hnew hc⟩

/-- Two rigids that share a point stay apart until a hedgehog gives the angle between them. -/
theorem saturated_add_hedgehog :
    let rigids : List Operation :=
      [.add (.rigid (.ofList ["A", "B"])), .add (.rigid (.ofList ["B", "C"]))]
    let hog := Cluster.hedgehog "B" (.ofList ["A", "C"])
    (run {} rigids).decomposition.Saturated ∧ hog.Valid ∧
      (run {} (rigids ++ [.add hog])).decomposition.Saturated ∧
        ∃ id, (run {} (rigids ++ [.add hog])).decomposition.cluster? id = some hog := by
  have hs := saturated_run_adds {} [.rigid (.ofList ["A", "B"]), .rigid (.ofList ["B", "C"])]
  have hv : (Cluster.hedgehog "B" (.ofList ["A", "C"])).Valid :=
    Cluster.valid_hedgehog_iff.2 ⟨by decide, by decide⟩
  exact ⟨hs, hv, (saturated_add {}).1 _ _ hs hv⟩

end Solver

end PlanarSketch
