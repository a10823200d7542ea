/-
Adding a cluster and removing it again.

In a saturated decomposition nothing can be merged, so every merge that a new
cluster allows involves that cluster or something that was computed from it.
When the cluster is removed again all these merges go, and with them the
hedgehogs that were derived for them from clusters that were there before.

* `Grafted`: a decomposition has grown by merges that need one new cluster,
  which the search keeps (`Grafted.process`);
* `Agrees`: two decompositions have the same clusters and merges in use and
  the same top level, so one is saturated if the other is
  (`Agrees.saturated`);
* `Grafted.agrees`: without the new cluster the old decomposition is back;
* `Solver.add_then_remove`: after any run that has led to a saturated solver,
  adding a cluster and removing it again changes nothing, and if the run went
  through without failures the candidates are the same too.
-/
import PlanarSketch.Proofs.Saturation
import PlanarSketch.Proofs.Wiring

namespace PlanarSketch

namespace Decomposition

variable {d d' e x : Decomposition} {id i : ClusterId} {c : Cluster} {k : MergeId} {m : Merge}
  {plan : Plan}

/-! ### Growing around a new cluster -/

/-- `x` has grown from `d` by the cluster `id` and by merges that need it, and whatever can still be
merged involves something new. -/
structure Grafted (d : Decomposition) (id : ClusterId) (x : Decomposition) : Prop where
  partOf : d.PartOf x
  found : ∀ ps plan, Finding x ps plan → ∃ p ∈ ps, ¬d.Live p
  top : ∀ t ∈ x.topLevel, d.Live t ∨ x.LeadsTo id t
  merge : ∀ k m, x.merges.find? k = some m →
    d.merges.find? k = some m ∨ m.rule.isDerivation = true ∨ x.LeadsTo id m.output
  cluster : ∀ i, x.Live i → d.Live i ∨ i = id ∨ ∃ k m, x.merges.find? k = some m ∧ m.output = i

theorem Saturated.grafted_receive (h : d.Saturated) (hd : d.Sound) (c : Cluster) :
    d.Grafted d.clusters.nextKey (d.receive c).2 := by
  refine ⟨partOf_receive d c, fun ps plan hf => ?_, fun t ht => ?_, fun k m hk => .inl hk,
    fun i hi => ?_⟩
  · by_cases hnew : d.clusters.nextKey ∈ ps
    · exact ⟨_, hnew, not_live_nextKey⟩
    · obtain ⟨plan', hf'⟩ := finding_of_receive hf hnew
      exact absurd hf' (saturated_iff.1 h ps plan')
  · rcases OrderedSet.mem_insert.1 ht with rfl | ht
    · exact .inr .refl
    · exact .inl (hd.grounded.top t ht)
  · exact ((live_insertCluster ⟨c, false, false⟩).1 hi).imp_right .inl

theorem Grafted.withWorklist (h : d.Grafted id x) (w : List ClusterId) :
    d.Grafted id { x with worklist := w } := by
  refine ⟨h.partOf.trans (.of_eq rfl rfl rfl rfl), fun ps plan hf => ?_, h.top, h.merge, h.cluster⟩
  obtain ⟨plan', hf'⟩ := hf.congr (d := x) rfl rfl rfl
  exact h.found ps plan' hf'

theorem Grafted.withoutJournal (h : d.Grafted id x) : d.Grafted id x.withoutJournal := by
  refine ⟨h.partOf.withoutJournal, fun ps plan hf => ?_, h.top, h.merge, h.cluster⟩
  obtain ⟨plan', hf'⟩ := hf.congr (d := x) rfl rfl rfl
  exact h.found ps plan' hf'

/-- What the search finds involves something new, so its output needs the new cluster. -/
theorem Grafted.carryOut (h : d.Grafted id x) (hx : x.Sound) (hi : i ∈ x.topLevel)
    (hs : x.search i = some plan) : d.Grafted id (x.carryOut plan).2 := by
  obtain ⟨ps, hf⟩ := finding_of_search hi hs
  have hplan := hf.sound hx.grounded
  have hcar := hx.carryOut hplan
  have hpart := x.partOf_carryOut plan
  have hmono : ∀ t, x.LeadsTo id t → (x.carryOut plan).2.LeadsTo id t :=
    fun t ht => ht.mono hpart.merges
  -- Someone who takes part in the merge is new, so it was computed from the new cluster.
  have hout : (x.carryOut plan).2.LeadsTo id (x.carryOut plan).1 := by
    obtain ⟨p, hp, hnew⟩ := h.found ps plan hf
    have hlead := (h.top p (hf.mem_topLevel hp)).resolve_left hnew
    obtain ⟨inp, hinp, rfl⟩ := hf.exists_input hp
    exact (hmono _ hlead).trans (leadsTo_carryOut hinp)
  refine ⟨h.partOf.trans hpart, fun ps' plan' hf' => ?_, fun t ht => ?_, fun k m hk => ?_,
    fun j hj => ?_⟩
  · -- A rule that does not involve the output was there before the merge.
    by_cases hmem : (x.carryOut plan).1 ∈ ps'
    · exact ⟨_, hmem, fun hl => hcar.fresh (h.partOf.live hl)⟩
    · obtain ⟨plan'', hf''⟩ := hcar.finding hx.grounded hplan hf' hmem
      exact h.found ps' plan'' hf''
  · rcases hcar.mem_topLevel.1 ht with ⟨ht, -⟩ | rfl
    · exact (h.top t ht).imp_right (hmono t)
    · exact .inr hout
  · rcases merge_of_carryOut hk with hk | hr | he
    · exact (h.merge k m hk).imp_right (Or.imp_right (hmono _))
    · exact .inr (.inl hr)
    · exact .inr (.inr (he ▸ hout))
  · -- Whatever is live is old, the new cluster, or the output of a merge.
    rcases live_of_carryOut hj with hj | hj
    · rcases h.cluster j hj with hj | rfl | ⟨k, m, hk, hm⟩
      · exact .inl hj
      · exact .inr (.inl rfl)
      · exact .inr (.inr ⟨k, m, hpart.merges k m hk, hm⟩)
    · exact .inr (.inr hj)

theorem Grafted.process (h : d.Grafted id x) (hx : x.Sound) : d.Grafted id x.process :=
  (hx.process_of_search (P := d.Grafted id) (fun _ w hg => hg.withWorklist w)
    (fun _ _ _ hs hg hi hplan => hg.carryOut hs hi hplan) h).2

/-! ### Taking the new cluster out again -/

/-- What was there before was not computed from the new cluster. -/
theorem Grafted.not_leadsTo (h : d.Grafted id x) (hd : d.Sound) (hid : ¬d.Live id) (hi : d.Live i) :
    ¬x.LeadsTo id i := by
  intro hlead
  have he := hd.grounded.eq_of_leadsTo hid ((h.partOf.leadsTo_iff hd.grounded hi).1 hlead)
  exact hid (he ▸ hi)

/-- The merges that were there before survive. -/
theorem Grafted.survives (h : d.Grafted id x) (hd : d.Sound) (hx : x.Sound) (hl : x.Lineage)
    (hdet : x.determining? id = none) (hid : ¬d.Live id) (hk : d.merges.find? k = some m) :
    (x.dropCluster id).merges.find? k = some m := by
  have hstay : ∀ k m, d.merges.find? k = some m → m.rule.isDerivation = false →
      (x.dropCluster id).merges.find? k = some m := by
    intro k m hk hr
    refine (hx.survives_iff hl hdet (h.partOf.merges k m hk)).2 ⟨?_, fun hr' => ?_⟩
    · exact h.not_leadsTo hd hid (hd.grounded.merge k m hk).output
    · rw [hr] at hr'
      cases hr'
  have hout := (hd.grounded.merge k m hk).output
  refine (hx.survives_iff hl hdet (h.partOf.merges k m hk)).2
    ⟨h.not_leadsTo hd hid hout, fun hr => ?_⟩
  -- The merge that consumes a derived hedgehog is not a derivation, so it survives.
  have htop := hd.settled.hidden k m hk hr (by simp)
  rw [hd.settled.frontier _ hout (by simp), Classical.not_not] at htop
  obtain ⟨j, m', hj, hmem⟩ := htop
  exact ⟨j, m', hstay j m' hj ((hd.grounded.merge j m' hj).mem_inputs hmem).1, hmem⟩

/-- No other merge survives. -/
theorem Grafted.find?_of_survives (h : d.Grafted id x) (hd : d.Sound) (hx : x.Sound)
    (hl : x.Lineage) (hdet : x.determining? id = none)
    (hk : (x.dropCluster id).merges.find? k = some m) : d.merges.find? k = some m := by
  obtain ⟨hs, hrem⟩ := hx.dropCluster hdet
  have hkx := hrem.merges k m hk
  obtain ⟨hlead, hcons⟩ := (hx.survives_iff hl hdet hkx).1 hk
  rcases h.merge k m hkx with hk | hr | hlead'
  · exact hk
  · -- A derived hedgehog that is still needed is needed by a merge that was there before.
    obtain ⟨j, m', hj, hmem⟩ := hcons hr
    obtain ⟨hr', hin⟩ := (hs.grounded.merge j m' hj).mem_inputs hmem
    have hjx := hrem.merges j m' hj
    rcases h.merge j m' hjx with hj' | hr'' | hlead'
    · exact h.partOf.find?_of_output hkx ((hd.grounded.merge j m' hj').inputs _ hin)
    · rw [hr'] at hr''
      cases hr''
    · exact absurd hlead' ((hx.survives_iff hl hdet hjx).1 hj).1
  · exact absurd hlead' hlead

/-- The clusters that were there before are there again. -/
theorem Grafted.live_dropCluster (h : d.Grafted id x) (hd : d.Sound) (hx : x.Sound)
    (hl : x.Lineage) (hdet : x.determining? id = none) (hid : ¬d.Live id) :
    (x.dropCluster id).Live i ↔ d.Live i := by
  obtain ⟨hs, hrem⟩ := hx.dropCluster hdet
  constructor
  · intro hi
    -- What is left is no output of a new merge, since these all go.
    rcases h.cluster i (hrem.live hi) with hi | rfl | ⟨k, m, hk, rfl⟩
    · exact hi
    · exact absurd hi (not_live_dropCluster x i)
    · have hk' := h.find?_of_survives hd hx hl hdet (hx.find?_dropCluster hl hdet hk hi)
      exact (hd.grounded.merge k m hk').output
  · intro hi
    -- An old cluster is the output of an old merge, which survives, or was added.
    by_cases hout : ∃ k m, d.merges.find? k = some m ∧ m.output = i
    · obtain ⟨k, m, hk, rfl⟩ := hout
      exact (hs.grounded.merge k m (h.survives hd hx hl hdet hid hk)).output
    · refine ((hx.added_dropCluster hl hdet i).2 ⟨⟨h.partOf.live hi, ?_⟩, ?_⟩).1
      · refine determining?_eq_none.2 fun k m hk he => hout ⟨k, m, ?_, he⟩
        exact h.partOf.find?_of_output hk (he ▸ hi)
      · rintro rfl
        exact hid hi

/-- The same clusters and merges are in use, and the same clusters are on the top level. -/
structure Agrees (d d' : Decomposition) : Prop where
  clusters : ∀ id, d'.clusters.find? id = d.clusters.find? id
  merges : ∀ k, d'.merges.find? k = d.merges.find? k
  topLevel : ∀ id, id ∈ d'.topLevel ↔ id ∈ d.topLevel

theorem Agrees.onTop (h : d.Agrees d') (p : Placed) : d'.OnTop p ↔ d.OnTop p := by
  unfold OnTop cluster?
  rw [h.topLevel, h.clusters]

/-- Where the same clusters and merges are in use, the same rules apply. -/
theorem Agrees.saturated (h : d.Agrees d') (hd : d.Sound) (hl : d.Lineage) (hd' : d'.Sound)
    (hl' : d'.Lineage) (hs : d.Saturated) : d'.Saturated := by
  have hdep : ∀ i source, d'.dependsOn i source = d.dependsOn i source := by
    intro i source
    rw [Bool.eq_iff_iff, hl'.dependsOn_iff hd'.grounded, hl.dependsOn_iff hd.grounded]
    exact ⟨fun hlead => hlead.mono fun k m hk => by rwa [h.merges] at hk,
      fun hlead => hlead.mono fun k m hk => by rwa [h.merges]⟩
  have hcov : ∀ t, d.covered t = true → d'.covered t = true := by
    intro t ht
    obtain ⟨p, hp, hk, hv⟩ := covered_iff.1 ht
    exact covered_iff.2 ⟨p, (h.onTop p).2 hp, hk, hv⟩
  refine saturated_iff.2 fun ps plan hf => ?_
  obtain ⟨plan', hf'⟩ := hf.backward (fun p _ hp => (h.onTop p).1 hp) (fun i _ => hdep i) hcov
  exact saturated_iff.1 hs ps plan' hf'

/-- Without the new cluster the old decomposition is back. -/
theorem Grafted.agrees (h : d.Grafted id x) (hd : d.Sound) (hx : x.Sound) (hl : x.Lineage)
    (hdet : x.determining? id = none) (hid : ¬d.Live id) : d.Agrees (x.dropCluster id) := by
  obtain ⟨hs, hrem⟩ := hx.dropCluster hdet
  -- Just the old merges survive, so just the old clusters are live, with the old consumption.
  have hmerges : ∀ k, (x.dropCluster id).merges.find? k = d.merges.find? k := fun k =>
    Option.ext fun m => ⟨h.find?_of_survives hd hx hl hdet, h.survives hd hx hl hdet hid⟩
  have hlive : ∀ c, (x.dropCluster id).Live c ↔ d.Live c := fun c =>
    h.live_dropCluster hd hx hl hdet hid
  refine ⟨fun c => Option.ext fun n => ?_, hmerges, fun c => ?_⟩
  · constructor
    · intro hc
      obtain ⟨n', hn'⟩ := Registry.mem_keys_iff.1 ((hlive c).1 (Registry.mem_keys_of_find? hc))
      rw [hn', ← h.partOf.clusters c n' hn', hrem.clusters c n hc]
    · intro hc
      obtain ⟨n', hn'⟩ := Registry.mem_keys_iff.1 ((hlive c).2 (Registry.mem_keys_of_find? hc))
      rw [hn', ← hrem.clusters c n' hn', h.partOf.clusters c n hc]
  · have hcons : (x.dropCluster id).Consumed c ↔ d.Consumed c := by
      unfold Consumed
      simp only [hmerges]
    constructor
    · intro hc
      have hl' := hs.grounded.top c hc
      rw [hd.settled.frontier c ((hlive c).1 hl') (by simp), ← hcons]
      exact (hs.settled.frontier c hl' (by simp)).1 hc
    · intro hc
      have hl' := hd.grounded.top c hc
      rw [hs.settled.frontier c ((hlive c).2 hl') (by simp), hcons]
      exact (hd.settled.frontier c hl' (by simp)).1 hc

/-- The search changes nothing in a saturated decomposition but the worklist. -/
theorem Saturated.process_eq (h : d.Saturated) : ∃ w, d.process = { d with worklist := w } := by
  refine processWithin_induction (P := fun x => ∃ w, x = { d with worklist := w }) ?_ _
    ⟨d.worklist, rfl⟩
  rintro x i rest hw ⟨w, rfl⟩
  have hsat : { d with worklist := rest }.Saturated := by
    refine saturated_iff.2 fun ps plan hf => ?_
    obtain ⟨plan', hf'⟩ := hf.congr (d := d) rfl rfl rfl
    exact saturated_iff.1 h ps plan' hf'
  refine ⟨rest, ?_⟩
  unfold processStep
  split
  · rename_i htop
    rw [hsat i (isTopLevel_iff.1 htop)]
  · rfl

/-! ### There and back -/

/-- A saturated decomposition to which a cluster was added, without what that wrote into the
journal. -/
theorem Saturated.grafted_add (h : d.Saturated) (hd : d.Reachable) (ha : d.add c = .ok (id, x)) :
    d.Grafted id x.withoutJournal ∧ ∀ e ∈ x.journal, e.AddsBetween d x := by
  obtain ⟨hc, rfl, rfl⟩ := hd.sound.add_eq_ok.1 ha
  have hs := hd.sound.receive hc
  refine ⟨((h.grafted_receive hd.sound c).process hs).withoutJournal, fun e he => ?_⟩
  refine (((partOf_receive d c).trans hs.partOf_process).journal e he).resolve_left fun he => ?_
  rw [hd.journal_eq_nil] at he
  cases he

/-- The root survives that the old decomposition has. -/
theorem Agrees.root_eq (h : d.Agrees e) (hd : d.Rooted) (hx : d.PartOf x) (he : x.Swept e) :
    e.root = d.root := by
  have hlive : ∀ r, e.Live r ↔ d.Live r := fun r => by
    unfold Live
    rw [Registry.mem_keys_iff, Registry.mem_keys_iff, h.clusters r]
  refine Option.ext fun r => ⟨fun hr => ?_, fun hr => ?_⟩
  · have hl := he.rooted (hx.rooted hd) r hr
    rw [← hx.root]
    exact (he.root r hl).1 hr
  · refine (he.root r ((hlive r).2 (hd r hr))).2 ?_
    rw [hx.root]
    exact hr

/-- What a removal takes out is new if the old decomposition is back. -/
theorem Agrees.beyond (h : d.Agrees e) (hx : d.PartOf x) {edit : Edit} (he : edit.Removes x e) :
    edit.Beyond d.clusters.issued d.merges.issued := by
  -- Only removals take something out; what they take was not there before, so its key is a later
  -- one.
  cases edit with
  | clusterAdded i => exact he.elim
  | mergeAdded k => exact he.elim
  | mergeRemoved k =>
    obtain ⟨⟨m, hk⟩, hgone⟩ := he
    rcases hx.newMerge k m hk with hold | ⟨hlt, -⟩
    · rw [h.merges, hold] at hgone
      cases hgone
    · exact hlt
  | clusterRemoved i =>
    obtain ⟨hl, hgone⟩ := he
    obtain ⟨n, hn⟩ := Registry.mem_keys_iff.1 hl
    rcases hx.newCluster i n hn with hold | hlt
    · rw [← h.clusters] at hold
      exact absurd (Registry.mem_keys_of_find? hold) hgone
    · exact hlt

/-- Removing the cluster that was added last brings the old decomposition back, and writes of
nothing else into the journal but of what had been added with it. -/
theorem Saturated.add_remove (h : d.Saturated) (hd : d.Reachable) (ha : d.add c = .ok (id, x))
    (hr : x.withoutJournal.remove id = .ok e) :
    d.Agrees e ∧ e.root = d.root ∧
      ∀ edit ∈ e.journal, edit.Beyond d.clusters.issued d.merges.issued := by
  have hid : ¬d.Live id := by
    obtain ⟨-, rfl, -⟩ := hd.sound.add_eq_ok.1 ha
    exact not_live_nextKey
  have hgraft := (h.grafted_add hd ha).1
  have hx : x.withoutJournal.Reachable := .add hd ha
  obtain ⟨-, hdet, rfl⟩ := hx.sound.remove_eq_ok.1 hr
  have hagree := hgraft.agrees hd.sound hx.sound hx.lineage hdet hid
  obtain ⟨hs, hrem⟩ := hx.sound.dropCluster hdet
  have hswept := (unwinds_dropCluster x.withoutJournal id).swept
  -- The clusters that return to the top level are searched, but nothing is found.
  have hsat := hagree.saturated hd.sound hd.lineage hs (hx.lineage.of_merges hrem.merges) h
  obtain ⟨w, hw⟩ := hsat.process_eq
  rw [hw]
  refine ⟨⟨hagree.clusters, hagree.merges, hagree.topLevel⟩,
    hagree.root_eq hd.rooted hgraft.partOf hswept, fun edit hedit => ?_⟩
  refine hagree.beyond hgraft.partOf ((hswept.journal edit hedit).resolve_left ?_)
  rw [hx.journal_eq_nil]
  exact List.not_mem_nil

end Decomposition

namespace Solver

open Decomposition

/-- Whenever a run has led to a saturated solver, adding a cluster and removing it again leaves the
clusters with their marks, the merges, the root and the top level as they were; and if every call of
the run succeeded, then every cluster has the candidates that it had. -/
theorem add_then_remove (config : SolverConfig) (ops : List Operation) (c : Cluster)
    (id : ClusterId) (s₁ s₂ : Solver) (hsat : (run config ops).decomposition.Saturated)
    (ha : (Solver.add c).run.run (run config ops) = (.ok id, s₁))
    (hr : (Solver.remove id).run.run s₁ = (.ok (), s₂)) :
    let s := run config ops
    let d := s.decomposition
    let e := s₂.decomposition
    (∀ i, e.clusters.find? i = d.clusters.find? i) ∧
      (∀ k, e.merges.find? k = d.merges.find? k) ∧ e.root = d.root ∧
      (∀ i, i ∈ e.topLevel ↔ i ∈ d.topLevel) ∧
      ((withConfig config).acceptsAll ops = true →
        ∀ i, e.Live i → s₂.candidates? i = s.candidates? i) := by
  intro s d e
  have hreach : d.Reachable := reachable_run config ops
  obtain ⟨x, hx, hrx⟩ := Solver.add_eq_ok ha
  have hs₁ := decomposition_restructure x s
  rw [hrx] at hs₁
  obtain ⟨y, hy, hry⟩ := Solver.remove_eq_ok hr
  rw [hs₁] at hy
  have hs₂ : e = y.withoutJournal := by
    have h := decomposition_restructure y s₁
    rw [hry] at h
    exact h
  obtain ⟨hagree, hroot, hbeyond⟩ := hsat.add_remove hreach hx hy
  rw [hs₂]
  refine ⟨hagree.clusters, hagree.merges, hroot, hagree.topLevel, fun hacc i hi => ?_⟩
  have hup := upToDate_run config ops hacc
  obtain ⟨hgraft, hadds⟩ := hsat.grafted_add hreach hx
  -- Both journals are about new clusters and merges only.
  have hsh₁ : s.Sheltered s₁ := by
    refine hup.sheltered.restructure (fun k m hk hlt => ?_) (fun edit hedit => ?_) hrx
    · rcases hgraft.partOf.newMerge k m hk with hold | ⟨-, hout⟩
      · exact absurd (Registry.serial_le_issued hold) (Nat.not_le.2 hlt)
      · exact hout
    · have hb := hadds edit hedit
      cases edit with
      | clusterAdded i => exact hb.1
      | mergeAdded k => exact hb.1
      | mergeRemoved k => exact hb.elim
      | clusterRemoved i => exact hb.elim
  have hsh₂ : s.Sheltered s₂ := by
    refine hsh₁.restructure (fun k m hk hlt => ?_) hbeyond hry
    rw [hagree.merges] at hk
    exact absurd (Registry.serial_le_issued hk) (Nat.not_le.2 hlt)
  refine hsh₂.candidates?_eq hup ?_
  obtain ⟨n, hn⟩ := Registry.mem_keys_iff.1 hi
  exact Registry.mem_keys_of_find? ((hagree.clusters i).symm.trans hn)

/-- A rigid comes and goes, and with it the merge that it allowed and the angle that was derived for
that merge from a hedgehog which stays. -/
theorem add_then_remove_rigid :
    let ops : List Operation :=
      [.add (.rigid (.ofList ["A", "B"])), .add (.hedgehog "B" (.ofList ["A", "C", "D"])),
        .assign ⟨1⟩ [.ofPoints (.ofList [("A", ⟨0, 0⟩), ("B", ⟨1, 0⟩)])]]
    let s := run {} ops
    let d := s.decomposition
    d.Saturated ∧ (withConfig {}).acceptsAll ops = true ∧ (s.candidates? ⟨1⟩).isSome = true ∧
      ∃ s₁ s₂, (Solver.add (.rigid (.ofList ["B", "C"]))).run.run s = (.ok ⟨3⟩, s₁) ∧
        s₁.decomposition.merges.values.map Merge.rule = [.deriveHedgehog, .rigidsAngleBetween] ∧
        (Solver.remove ⟨3⟩).run.run s₁ = (.ok (), s₂) ∧
        let e := s₂.decomposition
        (∀ i, e.clusters.find? i = d.clusters.find? i) ∧
          (∀ k, e.merges.find? k = d.merges.find? k) ∧ e.root = d.root ∧
          (∀ i, i ∈ e.topLevel ↔ i ∈ d.topLevel) ∧
          ((withConfig {}).acceptsAll ops = true →
            ∀ i, e.Live i → s₂.candidates? i = s.candidates? i) := by
  intro ops s d
  have hsat : d.Saturated := by
    show ∀ id ∈ d.topLevel.toList, _
    decide +kernel
  -- The addition derives a hedgehog and joins the rigids by its angle.
  obtain ⟨s₁, ha, hrules, hr⟩ : ∃ s₁,
      (Solver.add (.rigid (.ofList ["B", "C"]))).run.run s = (.ok ⟨3⟩, s₁) ∧
        s₁.decomposition.merges.values.map Merge.rule = [.deriveHedgehog, .rigidsAngleBetween] ∧
        ((Solver.remove ⟨3⟩).run.run s₁).1.toOption = some () :=
    ⟨_, eq_ok (by decide +kernel), by decide +kernel, by decide +kernel⟩
  exact ⟨hsat, by decide +kernel, by decide +kernel, s₁, _, ha, hrules, eq_ok hr,
    add_then_remove {} ops _ ⟨3⟩ s₁ _ hsat ha (eq_ok hr)⟩

end Solver

end PlanarSketch
