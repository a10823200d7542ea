/-
Added clusters.

A cluster was either added or computed by a merge.  Searching for merges and
undoing them only ever changes the computed ones, so which clusters are added
follows the calls: one comes with each addition and goes with its removal.

An added cluster has a cell to which no method writes.  The journal of a change
is about other clusters, and so is every edit that it replays, so the cell
keeps the candidates that it was given.

* `added?`: the cluster under a key, if it was added;
* `Reachable.added?_add`, `Reachable.added?_remove`, `Reachable.added?_setRoot`:
  the added clusters and the root after each change;
* `Spares`: a journal that is about nothing that stays in use;
* `Dataflow.Holds`, `Rests`: a cell with a value that no method writes;
* `Rests.replay`, `Rests.rebuildSelector`: one edit and one visit.
-/
import PlanarSketch.Proofs.Refusals
import PlanarSketch.Proofs.RootMarks

namespace PlanarSketch

namespace Decomposition

variable {d d' : Decomposition} {a b i id : ClusterId} {c : Cluster} {draft : MergeDraft}

/-! ### Added clusters -/

/-- The cluster under a key, if it was added and not computed. -/
def added? (d : Decomposition) (id : ClusterId) : Option Cluster :=
  if d.determining? id = none then d.cluster? id else none

theorem added?_eq_some : d.added? id = some c ↔
    d.cluster? id = some c ∧ ∀ k m, d.merges.find? k = some m → m.output ≠ id := by
  rw [added?, Option.ite_none_right_eq_some, determining?_eq_none, and_comm]

theorem added?_of_not_live (h : ¬d.Live id) : d.added? id = none :=
  Option.eq_none_iff_forall_ne_some.2 fun _ hc => h (live_of_cluster? (added?_eq_some.1 hc).1)

theorem added?_congr (hc : d'.cluster? id = d.cluster? id) (hm : d'.merges = d.merges) :
    d'.added? id = d.added? id := by
  unfold added? determining?
  rw [hc, hm]

/-- What was added is not computed from anything. -/
theorem not_begets_of_added? (h : d.added? b = some c) : ¬d.Begets a b := by
  intro hb
  obtain ⟨e, -, k, m, hk, -, hout⟩ := Relation.TransGen.tail'_iff.1 hb
  exact (added?_eq_some.1 h).2 k m hk hout

theorem Grounded.added?_receive (hg : d.Grounded) (c : Cluster) (i : ClusterId) :
    (d.receive c).2.added? i = if i = d.clusters.nextKey then some c else d.added? i := by
  ext e
  rw [added?_eq_some, show (d.receive c).2.cluster? i = some e ↔ _ from
    cluster?_insertCluster ⟨c, false, false⟩]
  show _ ∧ (∀ k m, d.merges.find? k = some m → m.output ≠ i) ↔ _
  split
  · subst i
    constructor
    · rintro ⟨hc | ⟨-, rfl⟩, -⟩
      · exact absurd (live_of_cluster? hc) not_live_nextKey
      · rfl
    · intro he
      refine ⟨.inr ⟨rfl, (Option.some_inj.1 he).symm⟩, fun k m hk hout => ?_⟩
      exact not_live_nextKey (hout ▸ (hg.merge k m hk).output)
  · rename_i hne
    simp [added?_eq_some, hne]

/-- The output of a merge is new and was not added. -/
theorem added?_addMerge :
    (d.addMerge draft).2.added? i = d.added? i := by
  ext e
  rw [added?_eq_some, added?_eq_some, cluster?_addMerge]
  constructor
  · rintro ⟨hc | ⟨rfl, -⟩, hout⟩
    · exact ⟨hc, fun k m hk => hout k m (find?_addMerge.2 (.inl hk))⟩
    · exact absurd rfl (hout _ _ (find?_addMerge.2 (.inr ⟨rfl, rfl⟩)))
  · rintro ⟨hc, hout⟩
    refine ⟨.inl hc, fun k m hk => ?_⟩
    rcases find?_addMerge.1 hk with hk | ⟨-, rfl⟩
    · exact hout k m hk
    · exact fun he => not_live_nextKey (he ▸ live_of_cluster? hc)

/-- Searching for merges adds nothing. -/
theorem Sound.added?_process (h : d.Sound) (i : ClusterId) : d.process.added? i = d.added? i :=
  (h.process_of_search (P := fun x => x.added? i = d.added? i) (fun _ _ hx => hx)
    (fun _ _ _ hx hsame htop hfound => by
      obtain ⟨ps, hf⟩ := finding_of_search htop hfound
      exact hx.grounded.carryOut_induction (P := fun x => x.added? i = d.added? i)
        (hf.sound hx.grounded) (fun _ _ _ _ hy => added?_addMerge.trans hy) hsame) rfl).2

/-- If merges go only with their outputs, then the clusters that were added stay added. -/
theorem Remnant.added?_eq (h : d'.Remnant d)
    (hm : ∀ k m, d.merges.find? k = some m → d'.Live m.output → d'.merges.find? k = some m)
    (hl : ∀ c, d.added? i = some c → d'.Live i) : d'.added? i = d.added? i := by
  ext c
  constructor
  · intro hc
    obtain ⟨hc, hout⟩ := added?_eq_some.1 hc
    refine added?_eq_some.2 ⟨h.cluster? hc, fun k m hk he => ?_⟩
    exact hout k m (hm k m hk (he ▸ live_of_cluster? hc)) he
  · intro hadded
    obtain ⟨c', hc'⟩ := live_iff.1 (hl c hadded)
    obtain ⟨hc, hout⟩ := added?_eq_some.1 hadded
    obtain rfl := Option.some_inj.1 ((h.cluster? hc').symm.trans hc)
    exact added?_eq_some.2 ⟨hc', fun k m hk => hout k m (h.merges k m hk)⟩

theorem Sound.added?_dropCluster (h : d.Sound) (hf : d.Lineage) (hid : d.determining? id = none)
    (i : ClusterId) :
    (d.dropCluster id).added? i = if i = id then none else d.added? i := by
  split
  · subst i
    exact added?_of_not_live (not_live_dropCluster d id)
  · rename_i hne
    refine (h.dropCluster hid).2.added?_eq (fun k m hk hl => h.find?_dropCluster hf hid hk hl)
      fun c hc => ?_
    obtain ⟨hc, hout⟩ := added?_eq_some.1 hc
    exact ((h.added_dropCluster hf hid i).2
      ⟨⟨live_of_cluster? hc, determining?_eq_none.2 hout⟩, hne⟩).1

theorem Sound.added?_rebuildDependents (h : d.Sound) (hf : d.Lineage) (id i : ClusterId) :
    (d.rebuildDependents id).added? i = d.added? i := by
  refine (h.rebuildDependents id).2.added?_eq (fun k m hk hl => ?_) fun c hc => ?_
  · by_cases hid : d.Live id
    · rw [live_rebuildDependents_iff hid] at hl
      rw [merges_rebuildDependents hid]
      exact h.find?_dropConsumers hf hk hl
    · rwa [rebuildDependents_of_not_live hid]
  · obtain ⟨hcluster, hout⟩ := added?_eq_some.1 hc
    exact (h.live_rebuildDependents hf (live_of_cluster? hcluster) fun k m hk _ => hout k m hk).2
      (not_begets_of_added? hc)

theorem Sound.added?_reroot (h : d.Sound) (hf : d.Lineage) (id i : ClusterId) :
    (d.reroot id).added? i = d.added? i := by
  have hs := h.withRootMark id
  have hmark : (d.withRootMark id).added? i = d.added? i :=
    added?_congr (cluster?_withRootMark id) (merges_withRootMark d id)
  rw [reroot_eq]
  cases d.root.filter (· ≠ id) with
  | none => exact (hs.added?_rebuildDependents (hf.withRootMark id) id i).trans hmark
  | some old =>
    obtain ⟨h₁, hrem⟩ := hs.rebuildDependents old
    exact ((h₁.added?_rebuildDependents ((hf.withRootMark id).of_merges hrem.merges) id i).trans
      (hs.added?_rebuildDependents (hf.withRootMark id) old i)).trans hmark

theorem Reachable.added?_add {d' : Decomposition} (h : d.Reachable) (hd : d.add c = .ok (id, d')) :
    id = d.clusters.nextKey ∧ d'.root = d.root ∧
      ∀ i, d'.added? i = if i = id then some c else d.added? i := by
  obtain ⟨hc, rfl, rfl⟩ := h.sound.add_eq_ok.1 hd
  have hs := h.sound.receive hc
  refine ⟨rfl, hs.partOf_process.root, fun i => ?_⟩
  rw [hs.added?_process, h.sound.grounded.added?_receive]

theorem Reachable.added?_remove (h : d.Reachable)
    (hroot : ∀ r, d.root = some r → ∃ c, d.added? r = some c) (hd : d.remove id = .ok d') :
    d'.root = d.root.filter (· ≠ id) ∧
      ∀ i, d'.added? i = if i = id then none else d.added? i := by
  obtain ⟨-, hdet, rfl⟩ := h.sound.remove_eq_ok.1 hd
  obtain ⟨hs, -⟩ := h.sound.dropCluster hdet
  have hadded := h.sound.added?_dropCluster h.lineage hdet
  refine ⟨?_, fun i => (hs.added?_process i).trans (hadded i)⟩
  -- The search that follows leaves the root alone, so only the cascade matters.
  rw [hs.partOf_process.root]
  have hswept := (unwinds_dropCluster d id).swept
  ext r
  simp only [Option.filter_eq_some_iff, decide_eq_true_eq]
  constructor
  · intro hr
    have hl := hswept.rooted h.rooted r hr
    refine ⟨(hswept.root r hl).1 hr, ?_⟩
    rintro rfl
    exact not_live_dropCluster d r hl
  · rintro ⟨hr, hne⟩
    -- A root that was added itself is still there, unless it is what is removed.
    obtain ⟨c, hc⟩ := hroot r hr
    have hkept : (d.dropCluster id).added? r = some c := by rwa [hadded, if_neg hne]
    exact (hswept.root r (live_of_cluster? (added?_eq_some.1 hkept).1)).2 hr

theorem Reachable.added?_setRoot (h : d.Reachable) (hid : d.added? id = some c)
    (hd : d.setRoot id = .ok d') : d'.root = some id ∧ ∀ i, d'.added? i = d.added? i := by
  obtain ⟨p, -, rfl⟩ := h.sound.setRoot_eq_ok.1 hd
  obtain ⟨hs, -⟩ := h.sound.reroot id
  have hadded := h.sound.added?_reroot h.lineage id
  refine ⟨?_, fun i => (hs.added?_process i).trans (hadded i)⟩
  rw [hs.partOf_process.root]
  exact (root_reroot (live_of_cluster? (added?_eq_some.1 ((hadded id).trans hid)).1)).2 rfl

/-! ### The journal -/

/-- The journal of a change is about no cluster that is in use before and after it. -/
def Spares (d d' : Decomposition) : Prop :=
  ∀ i, d.Live i → d'.Live i → Edit.clusterAdded i ∉ d'.journal ∧ Edit.clusterRemoved i ∉ d'.journal

/-- First something is taken out, and then something comes under new keys. -/
theorem PartOf.spares {d₀ x : Decomposition} (hp : x.PartOf d') (hs : d₀.Swept x)
    (hissued : d₀.clusters.issued = d.clusters.issued) (hj : d₀.journal = []) : d.Spares d' := by
  intro i hl hl'
  have hle := serial_le_of_live hl
  -- `i` is older than what the search adds.
  have hold : ¬x.clusters.issued < i.serial := by
    rw [hs.clustersIssued, hissued]
    omega
  -- What the journal says of the cascade, it says of clusters that are gone.
  have hremoves : ∀ e ∈ x.journal, e.Removes d₀ x := fun e he =>
    (hs.journal e he).resolve_left fun he => by
      rw [hj] at he
      cases he
  constructor
  · intro he
    rcases hp.journal _ he with he | he
    · exact hremoves _ he
    · exact hold he.1
  · intro he
    rcases hp.journal _ he with he | he
    · obtain ⟨n, hn⟩ := Registry.mem_keys_iff.1 hl'
      exact (hremoves _ he).2
        (Registry.mem_keys_of_find? ((hp.newCluster i n hn).resolve_right hold))
    · exact he

theorem Reachable.spares_of_change {op : Solver.Operation} (h : d.Reachable)
    (hop : op.change? d = some (.ok d')) : d.Spares d' := by
  have hj := h.journal_eq_nil
  match op, hop with
  | .add c, hop =>
    obtain ⟨id, hadd⟩ := Solver.exists_add_eq_ok hop
    obtain ⟨hc, -, rfl⟩ := h.sound.add_eq_ok.1 hadd
    exact ((partOf_receive d c).trans (h.sound.receive hc).partOf_process).spares (.refl d) rfl hj
  | .remove id, hop =>
    obtain ⟨-, hdet, rfl⟩ := h.sound.remove_eq_ok.1 (Option.some_inj.1 hop)
    exact (h.sound.dropCluster hdet).1.partOf_process.spares (unwinds_dropCluster d id).swept rfl hj
  | .setRoot id, hop =>
    obtain ⟨p, -, rfl⟩ := h.sound.setRoot_eq_ok.1 (Option.some_inj.1 hop)
    obtain ⟨hissued, -, -, hjournal⟩ := withRootMark_fields d id
    exact (h.sound.reroot id).1.partOf_process.spares (swept_reroot d id) hissued
      (hjournal.trans hj)

end Decomposition

/-! ### Cells at rest -/

namespace Dataflow

variable {V : Type} {g g' : Dataflow V} {a c : CellId V} {v w : Option V} {m k : MethodId V}

/-- The cell has the value, and no method writes to it. -/
structure Holds (g : Dataflow V) (c : CellId V) (v : Option V) : Prop where
  mem : c ∈ g.cells.keys
  value : g.value? c = v
  free : ∀ m i, g.methods.find? m = some i → c ∉ i.outputs

theorem Holds.not_mem_outputs (h : g.Holds c v) (m : MethodId V) : c ∉ g.outputs m := fun hc => by
  obtain ⟨i, hi, hc⟩ := mem_outputs hc
  exact h.free m i hi hc

theorem Holds.addCell (h : g.Holds c v) (label : String) (multi : Bool) (w : Option V) :
    (g.addCell label multi w).2.Holds c v := by
  have hne : g.cells.nextKey ≠ c := fun he => g.cells.nextKey_not_mem_keys (he ▸ h.mem)
  refine ⟨?_, ?_, h.free⟩
  · show c ∈ (g.cells.insert _).keys
    rw [Registry.keys_insert]
    exact List.mem_append_left _ h.mem
  · show ((g.cells.insert _).find? c).bind Cell.value = v
    rw [Registry.find?_insert, if_neg hne]
    exact h.value

theorem Holds.addMethod {method : Method V} {inputs outputs : List (CellId V)} (h : g.Holds c v)
    (hm : g.addMethod method inputs outputs = .ok (m, g')) (hc : c ∉ outputs) : g'.Holds c v := by
  have hcells := cells_addMethod hm
  refine ⟨hcells ▸ h.mem, ?_, fun j i hj => ?_⟩
  · unfold value?
    rw [hcells]
    exact h.value
  · rcases (find?_addMethod hm).1 hj with hj | ⟨-, rfl⟩
    · exact h.free j i hj
    · exact hc

theorem Holds.dropMethod (h : g.Holds c v) (k : MethodId V) : (g.dropMethod k).Holds c v := by
  refine ⟨(keys_dropMethod g k).symm ▸ h.mem, ?_, fun j i hj => ?_⟩
  · rw [value?_dropMethod, if_neg (h.not_mem_outputs k)]
    exact h.value
  · exact h.free j i (find?_dropMethod.1 hj).2

theorem Holds.foldl_dropMethod (h : g.Holds c v) (l : List (MethodId V)) :
    (l.foldl Dataflow.dropMethod g).Holds c v := by
  induction l generalizing g with
  | nil => exact h
  | cons k rest ih => exact ih (h.dropMethod k)

theorem Holds.removeCell (h : g.Holds c v) (hr : g.removeCell a = .ok g') (hne : c ≠ a) :
    g'.Holds c v := by
  unfold Dataflow.removeCell at hr
  split at hr
  · cases hr
    have hbare := h.foldl_dropMethod (g.around a)
    refine ⟨?_, ?_, hbare.free⟩
    · show c ∈ (Registry.erase _ a).keys
      rw [Registry.keys_erase, List.mem_filter]
      exact ⟨hbare.mem, by simpa using hne⟩
    · obtain ⟨cell, hcell⟩ := Registry.mem_keys_iff.1 hbare.mem
      rw [← hbare.value]
      unfold value?
      rw [hcell]
      exact congrArg (Option.bind · Cell.value) (Registry.find?_erase_eq_some.2 ⟨hne.symm, hcell⟩)
  · cases hr

theorem Holds.write (h : g.Holds c v) (a : CellId V) (w : Option V) :
    (g.write a w).Holds c (if a = c then w else v) := by
  obtain ⟨hmethods, -, hkeys⟩ := write_frame g a w
  refine ⟨hkeys.symm ▸ h.mem, ?_, fun j i hj => h.free j i (hmethods ▸ hj)⟩
  by_cases ha : a ∈ g.cells.keys
  · rw [value?_write ha, h.value]
  · have hne : a ≠ c := fun he => ha (he ▸ h.mem)
    rw [write_of_not_mem ha, h.value, if_neg hne]

theorem Holds.propagate (h : g.Holds c v) (hp : g.propagate = (.ok (), g')) : g'.value? c = v :=
  (value?_propagate hp fun m _ => h.not_mem_outputs m).trans h.value

end Dataflow

namespace Solver

open Decomposition

variable {s s' s₁ : Solver} {x d : Decomposition} {id : ClusterId} {k : MergeId} {m : Merge}
  {c : CellId Candidates} {v : Option Candidates} {op : Operation}

/-- The cell is there for the candidates of the cluster alone, and no merge computes them. -/
structure Rests (s : Solver) (id : ClusterId) (c : CellId Candidates) (v : Option Candidates) :
    Prop where
  cell : s.cells.find? id = some c
  holds : s.flow.Holds c v
  sole : ∀ r, s.Serves c r → r = .cluster id

theorem Rests.candidates? (h : s.Rests id c v) : s.candidates? id = v := by
  unfold Solver.candidates?
  rw [h.cell]
  exact h.holds.value

/-- The cell of an added cluster rests. -/
theorem Mirrors.rests (h : Mirrors x s) {o : Cluster} (hid : x.added? id = some o) :
    ∃ c, s.Rests id c (s.candidates? id) := by
  obtain ⟨hcluster, hout⟩ := added?_eq_some.1 hid
  obtain ⟨c, hc⟩ := (h.clusters id).1 (live_of_cluster? hcluster)
  have hserves : s.Serves c (.cluster id) := hc
  refine ⟨c, hc, ⟨h.mem_keys hserves, ?_, fun q i hq hmem => ?_⟩, fun r hr =>
    h.allotted.unique c r _ hr hserves⟩
  · unfold Solver.candidates?
    rw [hc]
    rfl
  · obtain ⟨k, hk⟩ := h.methods q i hq
    obtain ⟨m, hm, hs | hs⟩ := h.writes hq hk hmem
    · cases h.allotted.unique c _ _ hs hserves
    · exact hout k m hm (CellRole.cluster.inj (h.allotted.unique c _ _ hs hserves))

theorem Rests.wireCluster {i : ClusterId} (h : s.Rests id c v) (hi : i ≠ id)
    (hr : (wireCluster i).run.run s = (.ok (), s')) : s'.Rests id c v := by
  obtain ⟨label, rfl⟩ := wireCluster_eq_ok hr
  have hne : s.flow.cells.nextKey ≠ c := fun he =>
    s.flow.cells.nextKey_not_mem_keys (he ▸ h.holds.mem)
  refine ⟨?_, h.holds.addCell label true none, fun r hr => ?_⟩
  · rw [OrderedMap.find?_insert, if_neg hi]
    exact h.cell
  · match r, hr with
    | .prototype, hr => exact h.sole .prototype hr
    | .candidates k, hr => exact h.sole (.candidates k) hr
    | .cluster j, hr =>
      rcases OrderedMap.find?_insert_cases hr with ⟨-, he⟩ | hr
      · exact absurd he hne
      · exact h.sole (.cluster j) hr

theorem Rests.wireMerge (h : s.Rests id c v) (hm : m.output ≠ id)
    (hr : (wireMerge k m).run.run s = (.ok (), s')) : s'.Rests id c v := by
  obtain ⟨label, inputs, merge, g₁, out, select, g₂, -, h₁, hout, h₂, rfl⟩ := wireMerge_eq_ok hr
  -- The two cells that the methods write are the new one and that of the output.
  have hne : s.flow.cells.nextKey ≠ c := fun he =>
    s.flow.cells.nextKey_not_mem_keys (he ▸ h.holds.mem)
  have hserves : s.Serves out (.cluster m.output) := hout
  have hother : c ≠ out := by
    rintro rfl
    exact hm (CellRole.cluster.inj (h.sole _ hserves))
  refine ⟨h.cell, ?_, fun r hr => ?_⟩
  · exact ((h.holds.addCell label true none).addMethod h₁ (by simpa using hne.symm)).addMethod h₂
      (by simpa using hother)
  · -- The new cell serves only the merge that it was made for.
    match r, hr with
    | .prototype, hr => exact h.sole .prototype hr
    | .cluster j, hr => exact h.sole (.cluster j) hr
    | .candidates j, ⟨w, hw, hc⟩ =>
      rcases OrderedMap.find?_insert_cases hw with ⟨-, rfl⟩ | hw
      · exact absurd hc hne
      · exact h.sole (.candidates j) ⟨w, hw, hc⟩

theorem Rests.unwireMerge (h : s.Rests id c v) (hr : (unwireMerge k).run.run s = (.ok (), s')) :
    s'.Rests id c v := by
  rcases unwireMerge_eq_ok hr with ⟨rfl, -⟩ | ⟨w, g₁, g₂, g₃, hw, h₁, h₂, h₃, rfl⟩
  · exact h
  -- The three steps drop two methods and the cell of the merge, which is not `c`.
  have hother : c ≠ w.candidates := fun he => by cases h.sole (.candidates k) ⟨w, hw, he.symm⟩
  have hg₁ : g₁.Holds c v := by
    rcases h₁ with ⟨rfl, -⟩ | rfl
    · exact h.holds
    · exact h.holds.dropMethod _
  have hg₂ : g₂.Holds c v := by
    rcases h₂ with ⟨rfl, -⟩ | rfl
    · exact hg₁
    · exact hg₁.dropMethod _
  have hg₃ : g₃.Holds c v := by
    rcases h₃ with ⟨rfl, -⟩ | h₃
    · exact hg₂
    · exact hg₂.removeCell h₃ hother
  exact ⟨h.cell, hg₃, fun r hr => h.sole r (serves_eraseWiring.1 hr).1⟩

theorem Rests.unwireCluster {i : ClusterId} (h : s.Rests id c v) (hi : i ≠ id)
    (hr : (unwireCluster i).run.run s = (.ok (), s')) : s'.Rests id c v := by
  rcases unwireCluster_eq_ok hr with ⟨rfl, -⟩ | ⟨a, g, ha, hg, rfl⟩
  · exact h
  have hserves : s.Serves a (.cluster i) := ha
  have hother : c ≠ a := by
    rintro rfl
    exact hi (CellRole.cluster.inj (h.sole _ hserves))
  refine ⟨OrderedMap.find?_erase_eq_some.2 ⟨h.cell, hi.symm⟩, ?_, fun r hr =>
    h.sole r (serves_eraseCell.1 hr).1⟩
  rcases hg with ⟨rfl, -⟩ | hg
  · exact h.holds
  · exact h.holds.removeCell hg hother

/-- An edit about other clusters and merges leaves the cell at rest. -/
theorem Rests.replay {e : Edit} (h : s.Rests id c v) (hadded : e ≠ .clusterAdded id)
    (hremoved : e ≠ .clusterRemoved id)
    (hout : ∀ k m, s.decomposition.merges.find? k = some m → m.output ≠ id)
    (hr : (replay e).run.run s = (.ok (), s')) : s'.Rests id c v := by
  match e with
  | .clusterAdded i => exact h.wireCluster (fun he => hadded (he ▸ rfl)) hr
  | .mergeAdded k =>
    simp only [Solver.replay] at hr
    rw [Change.run_get_bind] at hr
    split at hr
    · rename_i m hm
      exact h.wireMerge (hout k m hm) hr
    · obtain ⟨-, rfl⟩ := pure_eq_ok.1 hr
      exact h
  | .mergeRemoved k => exact h.unwireMerge hr
  | .clusterRemoved i => exact h.unwireCluster (fun he => hremoved (he ▸ rfl)) hr

theorem Rests.rebuildSelector (h : s.Rests id c v)
    (hout : ∀ k m, s.decomposition.merges.find? k = some m → m.output ≠ id)
    (hr : (rebuildSelector k).run.run s = (.ok (), s')) : s'.Rests id c v := by
  rcases rebuildSelector_eq_ok hr with ⟨rfl, -⟩ | ⟨m, w, out, select, g, hm, hw, ho, hg, rfl⟩
  · exact h
  have hserves : s.Serves out (.cluster m.output) := ho
  have hother : c ≠ out := by
    rintro rfl
    exact hout k m hm (CellRole.cluster.inj (h.sole _ hserves))
  have hsame : ({ w with selectMethod := select } : MergeWiring).candidates = w.candidates := rfl
  exact ⟨h.cell, (h.holds.dropMethod _).addMethod hg (by simpa using hother), fun r hr =>
    h.sole r ((serves_replaceWiring hw hsame).1 hr)⟩

end Solver

end PlanarSketch
