/-
Evaluations never fail.

Every cell of a solver has a cluster that its candidates have to fit: its own
one, or the output of the merge that computes them.  If the candidates that are
given from outside fit, then all others do, and no method ever fails.  It is an
argument about types: methods take values that their inputs may have to values
that their outputs may have, so running one of them succeeds and keeps every
cell within its type; and a change of the decomposition only sheds values.

* `Dataflow.Typed`, `Installed.Respects`, `Formed.propagate_typed`: a
  propagation that respects types succeeds and keeps them;
* `DrawsOn`: every value has been there before, for the same purpose, which
  every edit keeps (`drawsOn_replay`, `drawsOn_rebuildSelector`);
* `Continues`: what is in use before and after a change is the same;
* `Fitted`: candidates fit, and `Fitted.perform`, `fitting_run`: they do so
  after every run in which those that are given fit, and no evaluation fails.
-/
import PlanarSketch.Proofs.Fitting
import PlanarSketch.Proofs.Replies

namespace PlanarSketch

/-! ### Values with types -/

/-- On values that the inputs may have the method succeeds, with values that the outputs may
have. -/
def Installed.Respects {V : Type} (i : Installed V) (T : CellId V → V → Prop) : Prop :=
  ∀ args, List.Forall₂ T i.inputs args → Yields (i.method.run args) (List.Forall₂ T i.outputs)

namespace Dataflow

variable {V : Type} {g g' g'' : Dataflow V} {T : CellId V → V → Prop} {a c : CellId V} {v : V}
  {m : MethodId V} {i : Installed V}

/-- Every value is one that its cell may have. -/
def Typed (g : Dataflow V) (T : CellId V → V → Prop) : Prop :=
  ∀ c v, g.value? c = some v → T c v

theorem Typed.write {w : Option V} (h : g.Typed T) (hw : ∀ v, w = some v → T a v) :
    (g.write a w).Typed T := by
  intro c v hv
  by_cases ha : a ∈ g.cells.keys
  · rw [value?_write ha] at hv
    split at hv
    · rename_i he
      exact he ▸ hw v hv
    · exact h c v hv
  · rw [write_of_not_mem ha] at hv
    exact h c v hv

theorem Typed.writeAll {cells : List (CellId V)} {values : List (Option V)} (h : g.Typed T)
    (hw : List.Forall₂ (fun c w => ∀ v, w = some v → T c v) cells values) :
    (g.writeAll (cells.zip values)).Typed T := by
  induction hw generalizing g with
  | nil => exact h
  | cons hone _ ih => exact ih (h.write hone)

/-- The results of a method that respects types. -/
theorem Typed.results (h : g.Typed T) (hi : i.Respects T) : Yields (g.results i) fun values =>
    List.Forall₂ (fun c w => ∀ v, w = some v → T c v) i.outputs values := by
  unfold Dataflow.results
  match hargs : g.arguments? i with
  | none =>
    refine ⟨_, rfl, List.forall₂_map_right_iff.2 (List.forall₂_same.2 fun c _ v hv => ?_)⟩
    cases hv
  | some args =>
    have htyped : List.Forall₂ T i.inputs args :=
      (forall₂_of_mapM_eq_some hargs).imp fun c v hv => h c v hv
    obtain ⟨values, hrun, hvalues⟩ := hi args htyped
    dsimp only
    rw [hrun]
    dsimp only
    rw [if_pos hvalues.length_eq.symm]
    refine ⟨_, rfl, List.forall₂_map_right_iff.2 (hvalues.imp fun c v hv w hw => ?_)⟩
    rwa [← Option.some_inj.1 hw]

/-- Methods that respect types run one after the other, and types are kept. -/
theorem Typed.executeAll {l : List (MethodId V)} (h : g.Typed T)
    (hmethods : ∀ m i, g.methods.find? m = some i → i.Respects T)
    (hl : ∀ m ∈ l, m ∈ g.methods.keys) :
    ∃ g', g.executeAll l = (.ok (), g') ∧ g'.Typed T := by
  induction l generalizing g with
  | nil => exact ⟨g, rfl, h⟩
  | cons m rest ih =>
    obtain ⟨i, hi⟩ := Registry.mem_keys_iff.1 (hl m List.mem_cons_self)
    obtain ⟨values, hvalues, htyped⟩ := h.results (hmethods m i hi)
    have hexecute := execute_of_results hi hvalues
    have hsame := (writeAll_frame g (i.outputs.zip values)).1
    obtain ⟨g', hg', h'⟩ := ih (h.writeAll htyped) (fun m i hi => hmethods m i (hsame ▸ hi))
      fun m hm => hsame ▸ hl m (List.mem_cons_of_mem _ hm)
    refine ⟨g', ?_, h'⟩
    rw [Dataflow.executeAll, hexecute]
    exact hg'

/-- If all methods respect types, a propagation succeeds and keeps them. -/
theorem Formed.propagate_typed (hf : g.Formed) (h : g.Typed T)
    (hmethods : ∀ m i, g.methods.find? m = some i → i.Respects T) :
    g.propagate.1 = .ok () ∧ g.propagate.2.Typed T := by
  have hkeys : ∀ m ∈ g.schedule, m ∈ g.settled.methods.keys := fun m hm =>
    hf.mem_keys_of_awaits (hf.mem_affected_iff.1 (hf.mem_affected_of_mem_schedule hm))
  have hstart : g.settled.Typed T := h
  obtain ⟨g', hx, h'⟩ := hstart.executeAll hmethods hkeys
  unfold Dataflow.propagate
  rw [hx]
  exact ⟨rfl, h'⟩

/-! ### Changes that only shed values -/

/-- Every value of the first dataflow is one of the second. -/
def DrawsOn (g' g : Dataflow V) : Prop := ∀ c v, g'.value? c = some v → g.value? c = some v

theorem DrawsOn.refl (g : Dataflow V) : g.DrawsOn g := fun _ _ h => h

theorem DrawsOn.trans (h : g''.DrawsOn g') (h' : g'.DrawsOn g) : g''.DrawsOn g :=
  fun c v hv => h' c v (h c v hv)

theorem DrawsOn.of_cells (h : g'.cells = g.cells) : g'.DrawsOn g := by
  intro c v hv
  unfold value? at hv ⊢
  rwa [h] at hv

theorem value?_of_addCell {label : String} {multi : Bool}
    (h : (g.addCell label multi none).2.value? c = some v) :
    c ≠ g.cells.nextKey ∧ g.value? c = some v := by
  obtain ⟨cell, hcell, hv⟩ := Option.bind_eq_some_iff.1 h
  rcases Registry.find?_insert_eq_some.1 hcell with hcell | ⟨-, rfl⟩
  · refine ⟨?_, Option.bind_eq_some_iff.2 ⟨cell, hcell, hv⟩⟩
    rintro rfl
    exact g.cells.nextKey_not_mem_keys (Registry.mem_keys_of_find? hcell)
  · cases hv

theorem drawsOn_dropMethod (g : Dataflow V) (m : MethodId V) : (g.dropMethod m).DrawsOn g := by
  intro c v hv
  rw [value?_dropMethod] at hv
  split at hv
  · cases hv
  · exact hv

theorem drawsOn_foldl_dropMethod (l : List (MethodId V)) (g : Dataflow V) :
    (l.foldl dropMethod g).DrawsOn g := by
  induction l generalizing g with
  | nil => exact .refl g
  | cons m rest ih => exact (ih _).trans (drawsOn_dropMethod g m)

theorem drawsOn_removeCell (h : g.removeCell a = .ok g') : g'.DrawsOn g := by
  unfold removeCell at h
  split at h
  · cases h
    refine DrawsOn.trans (fun c v hv => ?_) (drawsOn_foldl_dropMethod (g.around a) g)
    obtain ⟨cell, hcell, hv⟩ := Option.bind_eq_some_iff.1 hv
    exact Option.bind_eq_some_iff.2 ⟨cell, (Registry.find?_erase_eq_some.1 hcell).2, hv⟩
  · cases h

end Dataflow

namespace Solver

open Decomposition

variable {s s' s'' s₁ : Solver} {x x' d : Decomposition} {id : ClusterId} {k : MergeId} {m : Merge}
  {c : CellId Candidates} {r : CellRole} {v : Candidates} {o : Cluster} {op : Operation}

/-- Every value of the first solver is one of the second, in a cell for the same purpose. -/
def DrawsOn (s' s : Solver) : Prop :=
  ∀ c r v, s'.Serves c r → s'.flow.value? c = some v → s.Serves c r ∧ s.flow.value? c = some v

theorem DrawsOn.refl (s : Solver) : s.DrawsOn s := fun _ _ _ hr hv => ⟨hr, hv⟩

theorem DrawsOn.trans (h : s''.DrawsOn s') (h' : s'.DrawsOn s) : s''.DrawsOn s := by
  intro c r v hr hv
  obtain ⟨hr, hv⟩ := h c r v hr hv
  exact h' c r v hr hv

theorem drawsOn_forM {α : Type} {f : α → SolverM Unit} {l : List α}
    (hf : ∀ a s s', (f a).run.run s = (.ok (), s') → s'.DrawsOn s)
    (h : (l.forM f).run.run s = (.ok (), s')) : s'.DrawsOn s :=
  forM_eq_ok (I := fun s₁ => s₁.DrawsOn s) (fun a _ s₁ s₂ hI h₂ => (hf a s₁ s₂ h₂).trans hI)
    (.refl s) h

/-- Cells keep their purpose or are empty. -/
theorem drawsOn_of_flow (hflow : s'.flow.DrawsOn s.flow)
    (hserves : ∀ c r, s'.Serves c r → s.Serves c r ∨ ∀ v, s'.flow.value? c ≠ some v) :
    s'.DrawsOn s := by
  intro c r v hr hv
  rcases hserves c r hr with hr | hempty
  · exact ⟨hr, hflow c v hv⟩
  · exact absurd hv (hempty v)

theorem drawsOn_wireCluster (h : (wireCluster id).run.run s = (.ok (), s')) : s'.DrawsOn s := by
  obtain ⟨label, rfl⟩ := wireCluster_eq_ok h
  refine drawsOn_of_flow (fun c v hv => (Dataflow.value?_of_addCell hv).2) fun c r hr => ?_
  match r, hr with
  | .prototype, hr => exact .inl hr
  | .candidates k, hr => exact .inl hr
  | .cluster i, hr =>
    rcases OrderedMap.find?_insert_cases hr with ⟨-, rfl⟩ | hr
    · exact .inr fun v hv => (Dataflow.value?_of_addCell hv).1 rfl
    · exact .inl hr

theorem drawsOn_wireMerge (h : (wireMerge k m).run.run s = (.ok (), s')) : s'.DrawsOn s := by
  obtain ⟨label, inputs, merge, g₁, out, select, g₂, -, h₁, -, h₂, rfl⟩ := wireMerge_eq_ok h
  have hcells : g₂.DrawsOn (s.flow.addCell label true none).2 :=
    .of_cells ((Dataflow.cells_addMethod h₂).trans (Dataflow.cells_addMethod h₁))
  refine drawsOn_of_flow (fun c v hv => (Dataflow.value?_of_addCell (hcells c v hv)).2)
    fun c r hr => ?_
  match r, hr with
  | .prototype, hr => exact .inl hr
  | .cluster i, hr => exact .inl hr
  | .candidates j, ⟨w, hw, hc⟩ =>
    rcases OrderedMap.find?_insert_cases hw with ⟨-, rfl⟩ | hw
    · exact .inr fun v hv => (Dataflow.value?_of_addCell (hcells c v hv)).1 hc.symm
    · exact .inl ⟨w, hw, hc⟩

theorem drawsOn_unwireMerge (h : (unwireMerge k).run.run s = (.ok (), s')) : s'.DrawsOn s := by
  rcases unwireMerge_eq_ok h with ⟨rfl, -⟩ | ⟨w, g₁, g₂, g₃, -, h₁, h₂, h₃, rfl⟩
  · exact .refl s'
  · -- Two methods and a cell go, each of them if it is still there.
    have hg₁ : g₁.DrawsOn s.flow := by
      rcases h₁ with ⟨rfl, -⟩ | rfl
      · exact .refl _
      · exact Dataflow.drawsOn_dropMethod _ _
    have hg₂ : g₂.DrawsOn g₁ := by
      rcases h₂ with ⟨rfl, -⟩ | rfl
      · exact .refl _
      · exact Dataflow.drawsOn_dropMethod _ _
    have hg₃ : g₃.DrawsOn g₂ := by
      rcases h₃ with ⟨rfl, -⟩ | h₃
      · exact .refl _
      · exact Dataflow.drawsOn_removeCell h₃
    exact drawsOn_of_flow ((hg₃.trans hg₂).trans hg₁) fun c r hr =>
      .inl (serves_eraseWiring.1 hr).1

theorem drawsOn_unwireCluster (h : (unwireCluster id).run.run s = (.ok (), s')) :
    s'.DrawsOn s := by
  rcases unwireCluster_eq_ok h with ⟨rfl, -⟩ | ⟨c, g, -, hg, rfl⟩
  · exact .refl s'
  · have hflow : g.DrawsOn s.flow := by
      rcases hg with ⟨rfl, -⟩ | hg
      · exact .refl _
      · exact Dataflow.drawsOn_removeCell hg
    exact drawsOn_of_flow hflow fun c r hr => .inl (serves_eraseCell.1 hr).1

/-- An edit gives no cell a value. -/
theorem drawsOn_replay {e : Edit} (h : (replay e).run.run s = (.ok (), s')) : s'.DrawsOn s := by
  match e with
  | .clusterAdded id => exact drawsOn_wireCluster h
  | .mergeAdded k =>
    simp only [replay] at h
    rw [Change.run_get_bind] at h
    split at h
    · exact drawsOn_wireMerge h
    · obtain ⟨-, rfl⟩ := pure_eq_ok.1 h
      exact .refl s
  | .mergeRemoved k => exact drawsOn_unwireMerge h
  | .clusterRemoved id => exact drawsOn_unwireCluster h

/-- Nor does a new selector. -/
theorem drawsOn_rebuildSelector (h : (rebuildSelector k).run.run s = (.ok (), s')) :
    s'.DrawsOn s := by
  rcases rebuildSelector_eq_ok h with ⟨rfl, -⟩ | ⟨m, w, out, select, g, -, hw, -, hg, rfl⟩
  · exact .refl s'
  · have hcells : g.DrawsOn (s.flow.dropMethod w.selectMethod) :=
      .of_cells (Dataflow.cells_addMethod hg)
    have hsame : ({ w with selectMethod := select } : MergeWiring).candidates = w.candidates := rfl
    exact drawsOn_of_flow (hcells.trans (Dataflow.drawsOn_dropMethod _ _)) fun c r hr =>
      .inl ((serves_replaceWiring hw hsame).1 hr)

end Solver

namespace Decomposition

variable {d d' x : Decomposition} {op : Solver.Operation}

/-- Clusters and merges in use before and after a change are the same. -/
structure Continues (d d' : Decomposition) : Prop where
  cluster : ∀ id c, d.Live id → d'.cluster? id = some c → d.cluster? id = some c
  merge : ∀ k m m', d.merges.find? k = some m → d'.merges.find? k = some m' → m = m'

theorem Continues.refl (d : Decomposition) : d.Continues d :=
  ⟨fun _ _ _ h => h, fun _ _ _ h h' => Option.some_inj.1 (h.symm.trans h')⟩

/-- First something goes, and then something comes under new keys. -/
theorem PartOf.continues (hp : x.PartOf d')
    (hc : ∀ id c, x.cluster? id = some c → d.cluster? id = some c)
    (hm : ∀ k m, x.merges.find? k = some m → d.merges.find? k = some m)
    (hci : x.clusters.issued = d.clusters.issued) (hmi : x.merges.issued = d.merges.issued) :
    d.Continues d' := by
  constructor
  · intro id c hl hcl
    obtain ⟨n, hn, rfl⟩ := Option.map_eq_some_iff.1 hcl
    rcases hp.newCluster id n hn with hn | hlt
    · exact hc id _ (Option.map_eq_some_iff.2 ⟨n, hn, rfl⟩)
    · have hle := serial_le_of_live hl
      omega
  · intro k m m' hk hk'
    rcases hp.newMerge k m' hk' with hk' | ⟨hlt, -⟩
    · exact Option.some_inj.1 (hk.symm.trans (hm k m' hk'))
    · have hle := (d.merges.bounded k (Registry.mem_keys_of_find? hk)).2
      omega

theorem Reachable.continues_of_change (h : d.Reachable) (hop : op.change? d = some (.ok d')) :
    d.Continues d' := by
  match op, hop with
  | .add c, hop =>
    obtain ⟨id, hadd⟩ := Solver.exists_add_eq_ok hop
    obtain ⟨hc, -, rfl⟩ := h.sound.add_eq_ok.1 hadd
    -- The new cluster comes first, and the search goes on from there.
    have hpart := (partOf_receive d c).trans (h.sound.receive hc).partOf_process
    exact hpart.continues (fun _ _ hcl => hcl) (fun _ _ hk => hk) rfl rfl
  | .remove id, hop =>
    obtain ⟨-, hdet, rfl⟩ := h.sound.remove_eq_ok.1 (Option.some_inj.1 hop)
    -- The cascade takes something out, and the search goes on from there.
    obtain ⟨hs, hrem⟩ := h.sound.dropCluster hdet
    have hswept := (unwinds_dropCluster d id).swept
    exact hs.partOf_process.continues (fun _ _ hcl => hrem.cluster? hcl) hrem.merges
      hswept.clustersIssued hswept.mergesIssued
  | .setRoot id, hop =>
    obtain ⟨p, -, rfl⟩ := h.sound.setRoot_eq_ok.1 (Option.some_inj.1 hop)
    obtain ⟨hs, hrem⟩ := h.sound.reroot id
    have hswept := swept_reroot d id
    obtain ⟨hci, hmi, -, -⟩ := withRootMark_fields d id
    refine hs.partOf_process.continues (fun i c hcl => ?_) (fun k m hk => ?_)
      (hswept.clustersIssued.trans hci) (hswept.mergesIssued.trans hmi)
    · have hcl := hrem.cluster? hcl
      rwa [cluster?_withRootMark] at hcl
    · have hk := hrem.merges k m hk
      rwa [merges_withRootMark] at hk

end Decomposition

/-! ### Candidates that fit -/

/-- The cluster that the values of a cell have to fit. -/
def CellRole.cluster? (x : Decomposition) : CellRole → Option Cluster
  | .prototype => none
  | .cluster id => x.cluster? id
  | .candidates k => (x.merges.find? k).bind fun m => x.cluster? m.output

theorem cluster?_candidates {x : Decomposition} {k : MergeId} {m : Merge}
    (hm : x.merges.find? k = some m) :
    CellRole.cluster? x (.candidates k) = x.cluster? m.output := by
  rw [CellRole.cluster?, hm]
  rfl

/-- A rule that succeeds on every combination gathers values of one kind. -/
theorem yields_gather {T : Type} [BEq T] {rule : List T → Except MethodError (List T)}
    {P : T → Prop} {kept : List T} {combos : List (List T)} (hkept : ∀ v ∈ kept, P v)
    (h : ∀ c ∈ combos, Yields (rule c) fun outs => ∀ v ∈ outs, P v) :
    Yields (gather rule kept combos) fun values => ∀ v ∈ values, P v := by
  induction combos generalizing kept with
  | nil => exact ⟨kept, rfl, hkept⟩
  | cons c rest ih =>
    obtain ⟨outs, houts, hp⟩ := h c List.mem_cons_self
    rw [gather, houts]
    refine ih (fun v hv => ?_) fun c' hc' => h c' (List.mem_cons_of_mem _ hc')
    exact (mem_of_mem_foldl_keepNew hv).elim (hkept v) (hp v)

/-- A merge that is wired rightly takes lists of candidates that fit to such a list. -/
theorem MergeGeometry.Poses.yields_lift {geometry : MergeGeometry} {rule : MergeRule}
    {cs : List Cluster} {out : Cluster} {lists : List Candidates} (h : geometry.Poses rule cs out)
    (hlists : List.Forall₂ (fun l c => ∀ conf ∈ l, Configuration.Fits conf c) lists cs) :
    Yields ((mergeMethod rule geometry).lift.run lists) fun outs =>
      ∃ values, outs = [values] ∧ ∀ conf ∈ values, conf.Fits out := by
  have hall : ∀ combo ∈ combinations lists, Yields (geometry.evaluate rule combo) fun outs =>
      ∀ conf ∈ outs, conf.Fits out := by
    intro combo hcombo
    -- A combination takes one candidate from each list, and it fits the input at its place.
    have hmem := forall₂_of_mem_combinations hcombo
    refine h combo (List.forall₂_iff_get.2 ⟨hmem.length_eq.symm.trans hlists.length_eq, ?_⟩)
    intro n hn hn'
    have hlt : n < lists.length := hmem.length_eq ▸ hn
    exact hlists.get hlt hn' _ (hmem.get hlt hn)
  have hgather : Yields (gather (fun inputs => geometry.evaluate rule inputs) []
      (combinations lists)) fun values => ∀ conf ∈ values, conf.Fits out :=
    yields_gather nofun hall
  obtain ⟨values, hvalues, hfit⟩ := hgather
  refine ⟨[values], ?_, values, rfl, hfit⟩
  show (gather (fun inputs => geometry.evaluate rule inputs) [] (combinations lists)).map _ = _
  rw [hvalues]
  rfl

namespace Solver

open Decomposition

variable {s s' s₁ : Solver} {x x' d : Decomposition} {id : ClusterId} {k : MergeId} {m : Merge}
  {c : CellId Candidates} {r : CellRole} {v : Candidates} {o : Cluster} {op : Operation}

/-- The candidates fit what the cell is for. -/
def Suits (x : Decomposition) (s : Solver) (c : CellId Candidates) (v : Candidates) : Prop :=
  ∀ r o, s.Serves c r → r.cluster? x = some o → ∀ conf ∈ v, conf.Fits o

/-- All candidates fit. -/
def Fitted (x : Decomposition) (s : Solver) : Prop := s.flow.Typed (Suits x s)

/-- A cell has one purpose only. -/
theorem Mirrors.suits_of_serves (h : Mirrors x s) (hr : s.Serves c r)
    (hv : ∀ o, r.cluster? x = some o → ∀ conf ∈ v, conf.Fits o) : Suits x s c v := by
  intro r' o hr' ho
  obtain rfl := h.allotted.unique c r' r hr' hr
  exact hv o ho

/-- The method of a merge takes candidates that fit its inputs to such as fit its output. -/
theorem Mirrors.respects_merge {w : MergeWiring} {i : Installed Candidates} (h : Mirrors x s)
    (hp : m.Posed x) (hm : x.merges.find? k = some m) (hw : s.wirings.find? k = some w)
    (hi : s.flow.methods.find? w.mergeMethod = some i) : i.Respects (Suits x s) := by
  obtain ⟨cs, out, hin, hout, hposes⟩ := hp
  obtain ⟨inputs, hcells, hmerge⟩ := (h.computes k m w hm hw).merge
  obtain rfl := Option.some_inj.1 (hmerge.symm.trans hi)
  intro args hargs
  have hlists : List.Forall₂ (fun l c => ∀ conf ∈ l, Configuration.Fits conf c) args cs := by
    refine List.forall₂_iff_get.2 ⟨?_, fun n hn hn' => ?_⟩
    · rw [← hargs.length_eq, ← hin.length_eq, hcells.length_eq]
    · -- The input at a place is the cell of the cluster at that place.
      have hcell : n < inputs.length := hargs.length_eq ▸ hn
      have hid : n < m.inputs.length := hcells.length_eq ▸ hcell
      exact hargs.get hcell hn (.cluster (m.inputs.get ⟨n, hid⟩)) _ (hcells.get hid hcell)
        (hin.get hid hn')
  refine (hposes.yields_lift hlists).imp ?_
  rintro _ ⟨values, rfl, hfit⟩
  have hserves : s.Serves w.candidates (.candidates k) := ⟨w, hw, rfl⟩
  refine .cons (h.suits_of_serves hserves fun o ho => ?_) .nil
  rw [cluster?_candidates hm, hout] at ho
  rwa [← Option.some_inj.1 ho]

/-- A selector takes candidates that fit to some of them. -/
theorem Mirrors.respects_select {w : MergeWiring} {i : Installed Candidates} (h : Mirrors x s)
    (hm : x.merges.find? k = some m) (hw : s.wirings.find? k = some w)
    (hi : s.flow.methods.find? w.selectMethod = some i) : i.Respects (Suits x s) := by
  obtain ⟨cell, name, selector, hcell, hselect⟩ := (h.computes k m w hm hw).select
  obtain rfl := Option.some_inj.1 (hselect.symm.trans hi)
  intro args hargs
  obtain ⟨candidates, _, hsuits, hrest, rfl⟩ := List.forall₂_cons_left_iff.1 hargs
  obtain ⟨prototypes, _, -, hnil, rfl⟩ := List.forall₂_cons_left_iff.1 hrest
  obtain rfl := List.forall₂_nil_left_iff.1 hnil
  have hserves : s.Serves cell (.cluster m.output) := hcell
  refine ⟨_, rfl, .cons (h.suits_of_serves hserves fun o ho conf hconf => ?_) .nil⟩
  have hrole : CellRole.cluster? x (.candidates k) = some o := (cluster?_candidates hm).trans ho
  have hkept := (selector.select_sublist candidates prototypes.head?).subset hconf
  exact hsuits (.candidates k) o ⟨w, hw, rfl⟩ hrole conf hkept

/-- An evaluation succeeds, and all candidates fit afterwards. -/
theorem Fitted.propagate (h : Fitted x s) (hm : Mirrors x s) (hp : x.Posed) :
    s.flow.propagate.1 = .ok () ∧ Fitted x { s with flow := s.flow.propagate.2 } := by
  refine hm.formed.propagate_typed h fun q i hq => ?_
  obtain ⟨k, w, hw, rfl | rfl⟩ := hm.methods q i hq
  · obtain ⟨m, hk⟩ := (hm.merges k).2 ⟨w, hw⟩
    exact hm.respects_merge (hp k m hk) hk hw hq
  · obtain ⟨m, hk⟩ := (hm.merges k).2 ⟨w, hw⟩
    exact hm.respects_select hk hw hq

/-- What a cell is for is the same before and after a change. -/
theorem Mirrors.cluster?_of_continues (h : Mirrors x s) (hg : x.Grounded) (ha : x.Continues x')
    (hr : s.Serves c r) (ho : r.cluster? x' = some o) : r.cluster? x = some o := by
  match r, hr, ho with
  | .cluster id, hr, ho => exact ha.cluster id o ((h.clusters id).2 ⟨c, hr⟩) ho
  | .candidates k, ⟨w, hw, _⟩, ho =>
    obtain ⟨m, hm⟩ := (h.merges k).2 ⟨w, hw⟩
    obtain ⟨m', hm', ho⟩ := Option.bind_eq_some_iff.1 ho
    obtain rfl := ha.merge k m m' hm hm'
    exact Option.bind_eq_some_iff.2 ⟨m, hm, ha.cluster _ o (hg.merge k m hm).output ho⟩

theorem Fitted.drawsOn (h : Fitted x s) (hm : Mirrors x s) (hg : x.Grounded) (ha : x.Continues x')
    (hd : s'.DrawsOn s) : Fitted x' s' := by
  intro c v hv r o hr ho
  obtain ⟨hr, hv⟩ := hd c r v hr hv
  exact h c v hv r o hr (hm.cluster?_of_continues hg ha hr ho)

/-! ### Runs that give candidates that fit -/

/-- Whether a call gives a cluster in use, if any, only candidates that fit it. -/
def assignsFitting (s : Solver) : Operation → Bool
  | .assign id candidates =>
    (s.decomposition.cluster? id).all fun c => candidates.all fun conf => conf.Fits c
  | _ => true

/-- Whether this holds of calls one after the other. -/
def assignsAllFitting (s : Solver) : List Operation → Bool
  | [] => true
  | op :: rest => s.assignsFitting op && (s.perform op).assignsAllFitting rest

/-- What calls one after the other return. -/
def replies (s : Solver) : List Operation → List (Except SolverError Unit)
  | [] => []
  | op :: rest => s.reply op :: (s.perform op).replies rest

theorem Prepares.continues (hp : Prepares s op s₁) (hreach : s.decomposition.Reachable) :
    s.decomposition.Continues s₁.decomposition := by
  rcases hp.decomposition_cases with ⟨d, hop, hd⟩ | ⟨-, hd⟩
  · have hcontinues := hreach.continues_of_change hop
    rw [hd]
    exact ⟨hcontinues.cluster, hcontinues.merge⟩
  · rw [hd]
    exact .refl _

/-- What a call does before the evaluation leaves only candidates that fit. -/
theorem Prepares.fitted (hp : Prepares s op s₁) (h : Fitted s.decomposition s)
    (hm : Mirrors s.decomposition s) (hreach : s.decomposition.Reachable)
    (hop : s.assignsFitting op = true) : Fitted s₁.decomposition s₁ := by
  have hg := hreach.sound.grounded
  have hcontinues := hp.continues hreach
  match hp with
  | .restructured _ hs =>
    -- Rewiring moves values or drops them, and makes none up.
    have hdraws := drawsOn_forM (f := replay) (fun _ _ _ hr => drawsOn_replay hr) hs
    exact h.drawsOn hm hg hcontinues hdraws
  | @Prepares.assigned _ id c _ hc =>
    have hserves : s.Serves c (.cluster id) := hc
    -- The one value that is written is what the call gives, and it fits by assumption.
    refine Dataflow.Typed.write h fun v hv => ?_
    obtain rfl := Option.some_inj.1 hv
    refine hm.suits_of_serves hserves fun o ho conf hconf => ?_
    rw [assignsFitting, show s.decomposition.cluster? id = some o from ho] at hop
    exact of_decide_eq_true (List.all_eq_true.1 hop conf hconf)
  | .drawn _ _ =>
    -- The prototypes stand for no cluster.
    have hserves : s.Serves s.prototypeCell .prototype := rfl
    exact Dataflow.Typed.write h fun v _ => hm.suits_of_serves hserves fun o ho => by cases ho
  | .selected _ hs =>
    have hdraws := drawsOn_forM (f := rebuildSelector)
      (fun _ _ _ hr => drawsOn_rebuildSelector hr) hs
    exact h.drawsOn hm hg hcontinues hdraws

/-- A call that gives only candidates that fit leaves only such candidates, and its evaluation does
not fail. -/
theorem Fitted.perform (h : Fitted s.decomposition s) (hm : Mirrors s.decomposition s)
    (hreach : s.decomposition.Reachable) (hop : s.assignsFitting op = true) :
    Fitted (s.perform op).decomposition (s.perform op) ∧
      ∀ e, s.reply op ≠ .error (.dataflow e) := by
  have hreach' := reachable_perform hreach op
  have hends := hm.ends hreach op
  generalize s.reply op = r, s.perform op = s' at hends hreach' ⊢
  match hends with
  | .refused _ => exact ⟨h, nofun⟩
  | .idle _ _ => exact ⟨h, nofun⟩
  | .evaluated hp =>
    have hposed := hreach'.posed
    obtain ⟨hok, hfitted⟩ :=
      (hp.fitted h hm hreach hop).propagate (hp.mirrors hm hreach) hposed
    refine ⟨hfitted, fun e => ?_⟩
    rw [hok]
    exact nofun

theorem fitted_withConfig (config : SolverConfig) :
    Fitted (withConfig config).decomposition (withConfig config) := by
  intro c v _ r o _ ho
  match r, ho with
  | .cluster id, ho => cases ho
  | .candidates k, ho => cases ho

/-- In every run in which clusters, added or computed, are given only candidates with just their
points, every candidate of every cluster in use has just the points of the cluster, and no call ever
returns an error of the evaluation: none of a method and none of the dataflow. -/
theorem fitting_run (config : SolverConfig) (ops : List Operation)
    (h : (withConfig config).assignsAllFitting ops = true) :
    (∀ id c cs conf, (run config ops).decomposition.cluster? id = some c →
      (run config ops).candidates? id = some cs → conf ∈ cs → ∀ v, v ∈ conf.names ↔ v ∈ c) ∧
      ∀ r ∈ (withConfig config).replies ops, ∀ e, r ≠ .error (.dataflow e) := by
  have hstart := fitted_withConfig config
  have hmirrors := (faithful_withConfig config).mirrors
  have hreach : (withConfig config).decomposition.Reachable := .empty
  unfold run
  generalize withConfig config = s at h hstart hmirrors hreach ⊢
  induction ops generalizing s with
  | nil =>
    refine ⟨fun id c cs conf hc hcs hconf => ?_, nofun⟩
    obtain ⟨cell, hcell, hvalue⟩ := Option.bind_eq_some_iff.1 hcs
    exact hstart cell cs hvalue (.cluster id) c hcell hc conf hconf
  | cons op rest ih =>
    -- One call after the other: each leaves only candidates that fit, and answers without such an
    -- error.
    obtain ⟨hop, hrest⟩ := Bool.and_eq_true_iff.1 h
    obtain ⟨hfitted, hreply⟩ := hstart.perform hmirrors hreach hop
    obtain ⟨hall, hreplies⟩ := ih (s.perform op) hrest hfitted (hmirrors.perform hreach op)
      (reachable_perform hreach op)
    refine ⟨hall, fun r hr => ?_⟩
    rcases List.mem_cons.1 hr with rfl | hr
    · exact hreply
    · exact hreplies r hr

/-- A hedgehog grows by the angle that it derives from a rigid: both computed clusters have
candidates, with just their points. -/
theorem fitting_run_hedgehog :
    let ops : List Operation :=
      [.add (.rigid (.ofList ["A", "B", "C"])), .add (.hedgehog "A" (.ofList ["B", "D"])),
        .assign ⟨1⟩ [.ofList [("A", ⟨0, 0⟩), ("B", ⟨1, 0⟩), ("C", ⟨0, 1⟩)]],
        .assign ⟨2⟩ [.ofList [("A", ⟨0, 0⟩), ("B", ⟨1, 0⟩), ("D", ⟨1, 1⟩)]]]
    (withConfig {}).assignsAllFitting ops = true ∧
      (run {} ops).decomposition.cluster? ⟨4⟩ =
        some (.hedgehog "A" (.ofList ["B", "C", "D"])) ∧
      ((run {} ops).candidates? ⟨4⟩).map (List.map Configuration.names) =
        some [["A", "B", "D", "C"]] ∧
      (∀ cs conf, (run {} ops).candidates? ⟨4⟩ = some cs → conf ∈ cs →
        ∀ v, v ∈ conf.names ↔ v ∈ Cluster.hedgehog "A" (.ofList ["B", "C", "D"])) ∧
      ∀ r ∈ (withConfig {}).replies ops, ∀ e, r ≠ .error (.dataflow e) := by
  intro ops
  have hfitting : (withConfig {}).assignsAllFitting ops = true := by decide +kernel
  have hcluster : (run {} ops).decomposition.cluster? ⟨4⟩ =
      some (.hedgehog "A" (.ofList ["B", "C", "D"])) := by decide +kernel
  obtain ⟨hfit, hreplies⟩ := fitting_run {} ops hfitting
  exact ⟨hfitting, hcluster, by decide +kernel, fun cs conf => hfit ⟨4⟩ _ cs conf hcluster,
    hreplies⟩

end Solver

end PlanarSketch
