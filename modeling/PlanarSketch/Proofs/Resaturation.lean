/-
What a removal leaves to be merged.

A removal searches the clusters that it returns to the top level, and no
others.  This finds every merge that they take part in.  A merge between
clusters that were on the top level all along was not possible before, and of
what a rule asks for only one thing can come about by taking clusters away: a
triangle that two hedgehogs span loses the rigid or balloon that covered it.
Neither of the two is searched then.

* `mem_topLevel_dropCluster`: whatever returns to the top level is searched;
* `Sound.dependsOn_remove`: the clusters that stay were computed from what they
  were computed from;
* `Saturated.remove_iff`: the search after a removal ends where no merge is
  possible, unless a triangle has lost its cover.
-/
import PlanarSketch.Proofs.Cascade
import PlanarSketch.Proofs.Saturation

namespace PlanarSketch

namespace Decomposition

variable {d : Decomposition} {id i a b : ClusterId}

/-! ### What returns and what stays -/

theorem mem_topLevel_discard (h : i ∈ (d.discard id).topLevel) : i ∈ d.topLevel := by
  cases hn : d.clusters.find? id with
  | none => rwa [discard_eq_self (Registry.find?_eq_none.1 hn)] at h
  | some node =>
    obtain ⟨p, _, hp, -⟩ := discard_of_find? hn
    rw [hp] at h
    exact (OrderedSet.mem_erase.1 h).1

theorem discard_worklist (d : Decomposition) (id : ClusterId) :
    (d.discard id).worklist = d.worklist := by
  cases hn : d.clusters.find? id with
  | none => rw [discard_eq_self (Registry.find?_eq_none.1 hn)]
  | some node =>
    obtain ⟨p, _, hp, -⟩ := discard_of_find? hn
    rw [hp]

/-- What a removal returns to the top level waits to be searched. -/
theorem mem_topLevel_dropCluster (h : i ∈ (d.dropCluster id).topLevel) :
    i ∈ d.topLevel ∨ i ∈ (d.dropCluster id).worklist := by
  refine (unwinds_dropCluster d id).induction
    (I := fun _ x => ∀ i ∈ x.topLevel, i ∈ d.topLevel ∨ i ∈ x.worklist)
    (fun c new rest x x' hc hx i hi => ?_) (fun i hi => .inl hi) i h
  cases hc with
  | gone | kept | derived => exact hx i hi
  | undone hk => exact hx i hi
  | discarded j =>
    rw [discard_worklist]
    exact hx i (mem_topLevel_discard hi)
  | returned =>
    rcases OrderedSet.mem_insert.1 hi with rfl | hi
    · exact .inr (List.mem_append_right _ (List.mem_singleton_self _))
    · exact (hx i hi).imp_right (List.mem_append_left _)

/-- The clusters that stay were computed from the same clusters as before. -/
theorem Sound.leadsTo_dropCluster (h : d.Sound) (hl : d.Lineage) (hid : d.determining? id = none)
    (hb : (d.dropCluster id).Live b) : (d.dropCluster id).LeadsTo a b ↔ d.LeadsTo a b := by
  obtain ⟨hs, hrem⟩ := h.dropCluster hid
  refine ⟨fun hab => hab.mono hrem.merges, fun hab => ?_⟩
  refine hab.transfer (P := (d.dropCluster id).Live) hb fun k m hk hout => ?_
  have hk' := h.find?_dropCluster hl hid hk hout
  exact ⟨hk', (hs.grounded.merge k m hk').inputs⟩

/-- A cluster from before the removal that is there after the search has survived the removal. -/
theorem Sound.live_of_process (h : d.Sound) (hid : d.determining? id = none) (hi : d.Live i)
    (hi' : (d.dropCluster id).process.Live i) : (d.dropCluster id).Live i := by
  refine (h.dropCluster hid).1.partOf_process.live_of_le hi' ?_
  rw [(unwinds_dropCluster d id).swept.clustersIssued]
  exact serial_le_of_live hi

theorem Sound.dependsOn_remove (h : d.Sound) (hl : d.Lineage) (hid : d.determining? id = none)
    (hi : d.Live i) (hi' : (d.dropCluster id).process.Live i) (source : ClusterId) :
    (d.dropCluster id).process.dependsOn i source = d.dependsOn i source := by
  obtain ⟨hs, hrem⟩ := h.dropCluster hid
  have hl' := (hl.of_merges hrem.merges).process hs
  have hlive := h.live_of_process hid hi hi'
  rw [Bool.eq_iff_iff, hl'.dependsOn_iff hs.process.grounded, hl.dependsOn_iff h.grounded,
    hs.partOf_process.leadsTo_iff hs.grounded hlive, h.leadsTo_dropCluster hl hid hlive]

theorem Sound.cluster?_remove (h : d.Sound) (hid : d.determining? id = none) {c : Cluster}
    (hi : d.Live i) (hc : (d.dropCluster id).process.cluster? i = some c) :
    d.cluster? i = some c := by
  obtain ⟨hs, hrem⟩ := h.dropCluster hid
  obtain ⟨c', hc'⟩ := live_iff.1 (h.live_of_process hid hi (live_of_cluster? hc))
  have he := Option.some_inj.1 ((hs.cluster?_process hc').symm.trans hc)
  exact he ▸ hrem.cluster? hc'

/-! ### What the search misses -/

/-- What can be merged after a removal is a pair of hedgehogs whose triangle has lost its cover. -/
theorem Saturated.uncovered_of_finding (hsat : d.Saturated) (h : d.Sound) (hl : d.Lineage)
    (hid : d.determining? id = none) {ps : List ClusterId} {plan : Plan}
    (hf : Finding (d.dropCluster id).process ps plan) :
    ∃ me other c, d.Uncovered (d.dropCluster id).process me other c := by
  obtain ⟨hs, -⟩ := h.dropCluster hid
  have hstart : (d.dropCluster id).WatchedBut fun ps => ∀ i ∈ ps, i ∈ d.topLevel := by
    intro ps plan hf
    by_cases hnew : ∃ i ∈ ps, i ∉ d.topLevel
    · obtain ⟨i, hi, htop⟩ := hnew
      exact .inl ⟨i, hi, (mem_topLevel_dropCluster (hf.mem_topLevel hi)).resolve_left htop⟩
    · exact .inr fun i hi => Classical.not_not.1 fun htop => hnew ⟨i, hi, htop⟩
  -- Whoever takes part has been on the top level all along.
  have hold := hstart.process hs hf
  have hlive : ∀ i ∈ ps, d.Live i := fun i hi => h.grounded.top i (hold i hi)
  refine (hf.backward_or (d := d) (fun p hp hon => ⟨hold p.id hp, ?_⟩)
    fun i hi => ?_).resolve_left ?_
  · exact h.cluster?_remove hid (hlive p.id hp) hon.2
  · exact h.dependsOn_remove hl hid (hlive i hi) (hs.process.grounded.top i (hf.mem_topLevel hi))
  · rintro ⟨plan', hf'⟩
    exact saturated_iff.1 hsat ps plan' hf'

theorem Uncovered.not_saturated {e : Decomposition} {me other : PlacedHedgehog} {c : PointName}
    (h : d.Uncovered e me other c) : ¬e.Saturated := by
  intro hsat
  have hplan : ∃ plan, e.triangleOver? me other c = some plan :=
    ⟨_, if_neg (by simp [h.uncovered])⟩
  obtain ⟨plan, hplan⟩ := hplan
  exact saturated_iff.1 hsat _ plan
    (.triangle h.after.1 h.after.2 h.centres.1 h.centres.2 h.common hplan)

/-- After a removal nothing can be merged, unless two hedgehogs that stayed on the top level span a
triangle that was covered and is not any more. -/
theorem Saturated.remove_iff (hsat : d.Saturated) (h : d.Sound) (hl : d.Lineage)
    (hid : d.determining? id = none) : (d.dropCluster id).process.Saturated ↔
      ¬∃ me other c, d.Uncovered (d.dropCluster id).process me other c := by
  constructor
  · rintro hsat' ⟨me, other, c, hu⟩
    exact hu.not_saturated hsat'
  · intro hnone
    exact saturated_iff.2 fun ps plan hf => hnone (hsat.uncovered_of_finding h hl hid hf)

/-! ### The journal plays no part -/

theorem saturated_withoutJournal : d.withoutJournal.Saturated ↔ d.Saturated := by
  refine ⟨fun h => saturated_iff.2 fun ps plan hf => ?_, Saturated.withoutJournal⟩
  obtain ⟨plan', hf'⟩ := hf.congr (d := d.withoutJournal) rfl rfl rfl
  exact saturated_iff.1 h ps plan' hf'

theorem uncovered_withoutJournal {e : Decomposition} {me other : PlacedHedgehog} {c : PointName} :
    d.Uncovered e.withoutJournal me other c ↔ d.Uncovered e me other c :=
  ⟨fun ⟨h₁, h₂, h₃, h₄, h₅, h₆⟩ => ⟨h₁, h₂, h₃, h₄, h₅, h₆⟩,
    fun ⟨h₁, h₂, h₃, h₄, h₅, h₆⟩ => ⟨h₁, h₂, h₃, h₄, h₅, h₆⟩⟩

end Decomposition

namespace Solver

open Decomposition

/-- When clusters have only been added and one of them is removed again, nothing can be merged
afterwards, unless two hedgehogs that stayed on the top level span a triangle that a rigid or
balloon covered which is gone. -/
theorem saturated_remove_iff (config : SolverConfig) (cs : List Cluster) (id : ClusterId)
    (hl : (run config (cs.map .add)).decomposition.Live id)
    (hadd : (run config (cs.map .add)).decomposition.determining? id = none) :
    let d := (run config (cs.map .add)).decomposition
    let e := (run config (cs.map .add ++ [.remove id])).decomposition
    e.Saturated ↔ ¬∃ me other c, d.Uncovered e me other c := by
  intro d e
  have hreach : d.Reachable := reachable_run config _
  have he : e = (d.dropCluster id).process.withoutJournal := by
    have hr := decomposition_remove id (run config (cs.map .add))
    rw [← run_concat, hreach.sound.remove_eq_ok.2 ⟨hl, hadd, rfl⟩] at hr
    exact hr
  simp only [he, saturated_withoutJournal, uncovered_withoutJournal]
  exact (saturated_run_adds config cs).remove_iff hreach.sound hreach.lineage hadd

/-- Two hedgehogs in a rigid return when it is removed, and then make a balloon. -/
theorem saturated_remove_iff_absorbed :
    let cs := [Cluster.rigid (.ofList ["A", "B", "C"]), .hedgehog "A" (.ofList ["B", "C"]),
      .hedgehog "B" (.ofList ["A", "C"])]
    let d := (run {} (cs.map .add)).decomposition
    let e := (run {} (cs.map .add ++ [.remove ⟨1⟩])).decomposition
    (d.Live ⟨1⟩ ∧ d.determining? ⟨1⟩ = none) ∧
      d.merges.values.map Merge.rule = [.rigidAbsorbs, .rigidAbsorbs] ∧
      e.merges.values.map Merge.rule = [.hedgehogsToBalloon] ∧
      (e.Saturated ↔ ¬∃ me other c, d.Uncovered e me other c) := by
  intro cs d e
  have hl : d.Live ⟨1⟩ := by
    show _ ∈ _
    decide +kernel
  have hadd : d.determining? ⟨1⟩ = none := by decide +kernel
  exact ⟨⟨hl, hadd⟩, by decide +kernel, by decide +kernel, saturated_remove_iff {} cs ⟨1⟩ hl hadd⟩

/-- Two hedgehogs beside a rigid are left alone when it is removed, though they span a triangle that
nothing covers any more. -/
theorem not_saturated_remove :
    let cs := [Cluster.rigid (.ofList ["A", "B", "C"]), .hedgehog "A" (.ofList ["B", "C", "D"]),
      .hedgehog "B" (.ofList ["A", "C", "E"])]
    let d := (run {} (cs.map .add)).decomposition
    let e := (run {} (cs.map .add ++ [.remove ⟨1⟩])).decomposition
    (d.Live ⟨1⟩ ∧ d.determining? ⟨1⟩ = none) ∧
      e.topLevel.toList = [⟨2⟩, ⟨3⟩] ∧ e.merges.values = [] ∧
      ((e.search ⟨2⟩).map Plan.output = some (.balloon (.ofList ["A", "B", "C"])) ∧
        (e.search ⟨3⟩).map Plan.output = some (.balloon (.ofList ["A", "B", "C"]))) ∧
      ¬e.Saturated := by
  intro cs d e
  have hl : d.Live ⟨1⟩ := by
    show _ ∈ _
    decide +kernel
  refine ⟨⟨hl, by decide +kernel⟩, by decide +kernel, by decide +kernel, by decide +kernel, ?_⟩
  show ¬∀ id ∈ e.topLevel.toList, _
  decide +kernel

end Solver

end PlanarSketch
