/-
The dataflow can always follow the decomposition.

A change of the dataflow is refused if a cell or method is not there, a cell
would be computed twice, or a cell would lead back to itself.  As long as the
dataflow mirrors the decomposition, no edit of the journal asks for such a
change: a merge reads clusters that have cells and writes to one that nobody
knows yet, and a new selector takes exactly the place of the old one.

* `Formed.exists_addMethods`, `Formed.exists_replaceMethod`: methods that can
  be installed;
* `exists_wireCluster`, `Mirrors.exists_wireMerge`, `exists_unwireMerge`,
  `exists_unwireCluster`, `Mirrors.exists_rebuildSelector`: every edit goes
  through;
* `sane_replay`, `sane_rebuildSelector`: and keeps track of what is
  inconsistent.
-/
import PlanarSketch.Proofs.Mirror

namespace PlanarSketch

namespace Dataflow

variable {V : Type} {g : Dataflow V} {a b c : CellId V}

/-! ### Installing a method -/

theorem Rises.le_of_leads {rank : CellId V → Nat} (h : g.Rises rank)
    (hlead : Relation.ReflTransGen (fun x y => y ∈ g.dependents x) a b) : rank a ≤ rank b := by
  induction hlead with
  | refl => exact Nat.le_refl _
  | tail _ hstep ih =>
    obtain ⟨m, i, hi, hin, hout⟩ := mem_dependents.1 hstep
    exact Nat.le_trans ih (Nat.le_of_lt (h m i hi _ hin _ hout))

/-- A cell that no method reads leads nowhere. -/
theorem eq_of_leads_of_unread (hc : ∀ m i, g.methods.find? m = some i → a ∉ i.inputs)
    (hlead : Relation.ReflTransGen (fun x y => y ∈ g.dependents x) a b) : b = a := by
  rcases hlead.cases_head with rfl | ⟨x, hstep, -⟩
  · rfl
  · obtain ⟨m, i, hi, hin, -⟩ := mem_dependents.1 hstep
    exact absurd hin (hc m i hi)

/-- A method may write to a cell that none writes to yet and that leads to none of its inputs. -/
theorem Formed.exists_addMethod {inputs : List (CellId V)} (h : g.Formed) (method : Method V)
    (hcells : ∀ a ∈ inputs ++ [c], a ∈ g.cells.keys)
    (hfree : ∀ m i, g.methods.find? m = some i → c ∉ i.outputs)
    (hlead : ∀ a ∈ inputs, ¬Relation.ReflTransGen (fun x y => y ∈ g.dependents x) c a) :
    ∃ m g', g.addMethod method inputs [c] = .ok (m, g') := by
  -- All three checks pass: the cells are known, the output is free, and it leads to no input.
  have hknown : ¬((inputs ++ [c]).any fun a => !g.cells.contains a) = true := by
    intro hbad
    obtain ⟨a, ha, hno⟩ := List.any_eq_true.1 hbad
    rw [Registry.contains_iff.2 (hcells a ha)] at hno
    cases hno
  have hkey : c ∈ g.cells.keys := hcells c (List.mem_append_right _ List.mem_cons_self)
  have hdet : g.determining? c = none := by
    refine Option.eq_none_iff_forall_ne_some.2 fun m hm => ?_
    obtain ⟨i, hi, hout⟩ := find?_of_determining? hm
    exact hfree m i hi hout
  have hcheck : g.checkOutputs method.name inputs [] [c] = .ok () := by
    refine checkOutputs_eq_ok.2 ⟨List.nodup_singleton c, fun d hd => ?_⟩
    obtain rfl := List.mem_singleton.1 hd
    refine ⟨List.not_mem_nil, hdet, fun a ha => ?_⟩
    rw [← Bool.not_eq_true, h.leadsTo_iff hkey]
    exact hlead a ha
  unfold Dataflow.addMethod
  rw [if_neg hknown, hcheck]
  exact ⟨_, _, rfl⟩

/-- A new cell can be computed from cells in use, and from it one that no method knows. -/
theorem Formed.exists_addMethods {inputs : List (CellId V)} (h : g.Formed) (label : String)
    (first second : Method V) (hin : ∀ a ∈ inputs, a ∈ g.cells.keys ∧ a ≠ c)
    (hb : b ∈ g.cells.keys ∧ b ≠ c) (hc : c ∈ g.cells.keys)
    (hunknown : ∀ m i, g.methods.find? m = some i → c ∉ i.inputs ++ i.outputs) :
    ∃ m₁ g₁ m₂ g₂, (g.addCell label true none).2.addMethod first inputs [g.cells.nextKey] =
        .ok (m₁, g₁) ∧ g₁.addMethod second [g.cells.nextKey, b] [c] = .ok (m₂, g₂) := by
  have hnew : ∀ {a}, a ∈ g.cells.keys → a ≠ g.cells.nextKey := fun ha he =>
    g.cells.nextKey_not_mem_keys (he ▸ ha)
  have hkeys : ∀ a, a ∈ (g.addCell label true none).2.cells.keys ↔
      a ∈ g.cells.keys ∨ a = g.cells.nextKey := by
    intro a
    show a ∈ (g.cells.insert _).keys ↔ _
    rw [Registry.keys_insert, List.mem_append, List.mem_singleton]
  -- No method knows the new cell.
  have hfresh : ∀ m i, (g.addCell label true none).2.methods.find? m = some i →
      g.cells.nextKey ∉ i.inputs ++ i.outputs := fun m i hi ha => hnew (h.cells m i hi _ ha) rfl
  have hknown₁ : ∀ a ∈ inputs ++ [g.cells.nextKey], a ∈ (g.addCell label true none).2.cells.keys :=
    fun a ha => (hkeys a).2 ((List.mem_append.1 ha).imp (fun ha => (hin a ha).1)
      List.mem_singleton.1)
  obtain ⟨m₁, g₁, h₁⟩ := (h.addCell label true none).exists_addMethod first hknown₁
    (fun m i hi ha => hfresh m i hi (List.mem_append_right _ ha)) fun a ha hlead => by
      have he := eq_of_leads_of_unread
        (fun m i hi ha => hfresh m i hi (List.mem_append_left _ ha)) hlead
      exact hnew (hin a ha).1 he
  have hfind : ∀ m i, g₁.methods.find? m = some i → g.methods.find? m = some i ∨
      i = ⟨first, inputs, [g.cells.nextKey]⟩ := fun m i hi =>
    ((find?_addMethod h₁).1 hi).imp id And.right
  have hk₁ : ∀ a, a ∈ g₁.cells.keys ↔ a ∈ g.cells.keys ∨ a = g.cells.nextKey := fun a => by
    rw [cells_addMethod h₁]
    exact hkeys a
  have hunread : ∀ m i, g₁.methods.find? m = some i → c ∉ i.inputs := by
    intro m i hi hmem
    rcases hfind m i hi with hi | rfl
    · exact hunknown m i hi (List.mem_append_left _ hmem)
    · exact (hin c hmem).2 rfl
  have hknown₂ : ∀ a ∈ [g.cells.nextKey, b] ++ [c], a ∈ g₁.cells.keys := by
    intro a ha
    simp only [List.cons_append, List.nil_append, List.mem_cons, List.not_mem_nil, or_false] at ha
    rcases ha with rfl | rfl | rfl
    · exact (hk₁ _).2 (.inr rfl)
    · exact (hk₁ _).2 (.inl hb.1)
    · exact (hk₁ _).2 (.inl hc)
  obtain ⟨m₂, g₂, h₂⟩ := ((h.addCell label true none).addMethod h₁).exists_addMethod second hknown₂
    (fun m i hi hmem => by
      rcases hfind m i hi with hi | rfl
      · exact hunknown m i hi (List.mem_append_right _ hmem)
      · exact hnew hc (List.mem_singleton.1 hmem))
    fun a ha hlead => by
      have he := eq_of_leads_of_unread hunread hlead
      simp only [List.mem_cons, List.not_mem_nil, or_false] at ha
      rcases ha with rfl | rfl
      · exact hnew hc he.symm
      · exact hb.2 he
  exact ⟨m₁, g₁, m₂, g₂, h₁, h₂⟩

/-- A method may be replaced by one between the same cells. -/
theorem Formed.exists_replaceMethod {m : MethodId V} {i : Installed V} (h : g.Formed)
    (hi : g.methods.find? m = some i) (hc : i.outputs = [c]) (method : Method V) :
    ∃ m' g', (g.dropMethod m).addMethod method i.inputs [c] = .ok (m', g') := by
  obtain ⟨rank, hrank⟩ := h.ranked
  refine (h.dropMethod m).exists_addMethod method (fun a ha => ?_) (fun j i' hj hout => ?_)
    fun a ha hlead => ?_
  · rw [keys_dropMethod]
    exact h.cells m i hi a (hc ▸ ha)
  · obtain ⟨hne, hj⟩ := find?_dropMethod.1 hj
    exact hne (h.once m j i i' c hi hj (hc ▸ List.mem_cons_self) hout)
  · -- The ranks of the cells still rise from the inputs to the output.
    have hdrop : (g.dropMethod m).Rises rank := fun j i' hj => hrank j i' (find?_dropMethod.1 hj).2
    have hle := hdrop.le_of_leads hlead
    have hlt := hrank m i hi a ha c (hc ▸ List.mem_cons_self)
    omega

end Dataflow

namespace Solver

open Decomposition

variable {s s' : Solver} {x : Decomposition} {id : ClusterId} {k : MergeId} {m : Merge}
  {w : MergeWiring} {c out : CellId Candidates} {q : MethodId Candidates}

/-! ### Every edit goes through -/

theorem exists_mapM_cellOf {ids : List ClusterId} (h : ∀ id ∈ ids, ∃ c, s.cells.find? id = some c) :
    ∃ cs, (ids.mapM cellOf).run.run s = (.ok cs, s) := by
  induction ids with
  | nil => exact ⟨[], rfl⟩
  | cons id rest ih =>
    obtain ⟨c, hc⟩ := h id List.mem_cons_self
    obtain ⟨cs, hcs⟩ := ih fun i hi => h i (List.mem_cons_of_mem _ hi)
    refine ⟨c :: cs, ?_⟩
    rw [List.mapM_cons]
    exact bind_eq_ok.2 ⟨c, s, cellOf_eq_ok.2 ⟨hc, rfl⟩,
      bind_eq_ok.2 ⟨cs, s, hcs, pure_eq_ok.2 ⟨rfl, rfl⟩⟩⟩

theorem installSelector_of_addMethod {g : Dataflow Candidates}
    (hout : s.cells.find? m.output = some out)
    (hg : s.flow.addMethod (selectMethod ("select:" ++ s.clusterText m.output) (s.selectorFor m))
      [c, s.prototypeCell] [out] = .ok (q, g)) :
    (installSelector m c).run.run s = (.ok q, { s with flow := g }) := by
  unfold installSelector
  refine bind_eq_ok.2 ⟨out, s, cellOf_eq_ok.2 ⟨hout, rfl⟩, ?_⟩
  rw [Change.run_get_bind]
  exact changeFlow_eq_ok.2 ⟨g, hg, rfl⟩

theorem addMultiMethod_addCell {T : Type} [BEq T] {g : Dataflow (List T)} {label : String}
    {method : MultiMethod T} {inputs : List (CellId (List T))}
    {r : MethodId (List T) × Dataflow (List T)}
    (h : (g.addCell label true none).2.addMethod method.lift inputs [g.cells.nextKey] = .ok r) :
    (g.addCell label true none).2.addMultiMethod method inputs [g.cells.nextKey] = .ok r := by
  have hfind : (g.addCell label true none).2.cells.find? g.cells.nextKey =
      some ⟨label, none, true⟩ := by
    show (g.cells.insert _).find? _ = _
    rw [Registry.find?_insert, if_pos rfl]
  have hcell : (g.addCell label true none).2.cells.contains g.cells.nextKey = true :=
    Registry.contains_iff.2 (Registry.mem_keys_of_find? hfind)
  have hmulti : (g.addCell label true none).2.isMulti g.cells.nextKey = true := by
    rw [Dataflow.isMulti, hfind]
    rfl
  unfold Dataflow.addMultiMethod
  simp only [hcell, hmulti, Bool.not_true, Bool.false_eq_true, if_false]
  exact h

theorem exists_wireCluster (s : Solver) (id : ClusterId) :
    ∃ s', (wireCluster id).run.run s = (.ok (), s') := by
  unfold wireCluster
  rw [Change.run_get_bind]
  exact ⟨_, bind_eq_ok.2 ⟨_, _, changeFlow_eq_ok.2 ⟨_, rfl, rfl⟩, modify_eq_ok.2 rfl⟩⟩

theorem wireMerge_of_addMethods {inputs : List (CellId Candidates)}
    {merge select : MethodId Candidates} {g₁ g₂ : Dataflow Candidates} (k : MergeId)
    (hinputs : (m.inputs.mapM cellOf).run.run s = (.ok inputs, s))
    (hout : s.cells.find? m.output = some out)
    (h₁ : (s.flow.addCell (m.rule.name ++ ":" ++ s.clusterText m.output) true none).2.addMethod
      (mergeMethod m.rule m.geometry).lift inputs [s.flow.cells.nextKey] = .ok (merge, g₁))
    (h₂ : g₁.addMethod (selectMethod ("select:" ++ s.clusterText m.output) (s.selectorFor m))
      [s.flow.cells.nextKey, s.prototypeCell] [out] = .ok (select, g₂)) :
    (wireMerge k m).run.run s = (.ok (), { s with
      flow := g₂
      wirings := s.wirings.insert k ⟨s.flow.cells.nextKey, merge, select⟩
      roster := s.roster.seat k }) := by
  unfold wireMerge
  refine bind_eq_ok.2 ⟨inputs, s, hinputs, ?_⟩
  rw [Change.run_get_bind]
  refine bind_eq_ok.2 ⟨_, _, changeFlow_eq_ok.2 ⟨_, rfl, rfl⟩, ?_⟩
  refine bind_eq_ok.2 ⟨merge, _, changeFlow_eq_ok.2 ⟨g₁, addMultiMethod_addCell h₁, rfl⟩, ?_⟩
  exact bind_eq_ok.2 ⟨select, _, installSelector_of_addMethod hout h₂, modify_eq_ok.2 rfl⟩

/-- A merge of clusters in use is wired if no merge knows its output yet. -/
theorem Mirrors.exists_wireMerge (h : Mirrors x s) (k : MergeId)
    (hin : ∀ id ∈ m.inputs, x.Live id) (hout : x.Live m.output) (hself : m.output ∉ m.inputs)
    (hnew : ∀ k m', x.merges.find? k = some m' → m.output ∉ m'.inputs ∧ m'.output ≠ m.output) :
    ∃ s', (Solver.wireMerge k m).run.run s = (.ok (), s') := by
  obtain ⟨inputs, hinputs⟩ := exists_mapM_cellOf fun id hid => (h.clusters id).1 (hin id hid)
  obtain ⟨hcells, -⟩ := mapM_cellOf_eq_ok hinputs
  obtain ⟨out, ho⟩ := (h.clusters m.output).1 hout
  have hrole : s.Serves out (.cluster m.output) := ho
  have hproto : s.Serves s.prototypeCell .prototype := rfl
  have hmem : ∀ {c r}, s.Serves c r → c ∈ s.flow.cells.keys := fun hr =>
    (h.allotted.mem_iff _).2 ⟨_, hr⟩
  -- The inputs have cells of their own, other than that of the output.
  have hother : ∀ c ∈ inputs, c ∈ s.flow.cells.keys ∧ c ≠ out := by
    intro c hc
    obtain ⟨n, hn, rfl⟩ := List.mem_iff_getElem.1 hc
    have hlt : n < m.inputs.length := hcells.length_eq ▸ hn
    have hs : s.Serves inputs[n] (.cluster m.inputs[n]) := hcells.get hlt hn
    refine ⟨hmem hs, fun he => hself ?_⟩
    rw [CellRole.cluster.inj (h.allotted.unique out _ _ hrole (he ▸ hs))]
    exact List.getElem_mem hlt
  -- A method that knew the cell would belong to a merge that reads or computes the output.
  have hunknown : ∀ q i, s.flow.methods.find? q = some i → out ∉ i.inputs ++ i.outputs := by
    intro q i hq hc
    obtain ⟨j, hj⟩ := h.methods q i hq
    obtain ⟨m', hm', hs | hs | ⟨i', hi', hs⟩⟩ := h.knows hq hj hc
    · cases h.allotted.unique out _ _ hrole hs
    · cases h.allotted.unique out _ _ hrole hs
    · obtain rfl := CellRole.cluster.inj (h.allotted.unique out _ _ hrole hs)
      exact hi'.elim (hnew j m' hm').1 fun he => (hnew j m' hm').2 he.symm
  have hprotoOut : s.prototypeCell ≠ out := by
    intro he
    cases h.allotted.unique out _ _ hrole (he ▸ hproto)
  obtain ⟨merge, g₁, select, g₂, h₁, h₂⟩ := h.formed.exists_addMethods
    (m.rule.name ++ ":" ++ s.clusterText m.output) (mergeMethod m.rule m.geometry).lift
    (selectMethod ("select:" ++ s.clusterText m.output) (s.selectorFor m)) hother
    ⟨hmem hproto, hprotoOut⟩ (hmem hrole) hunknown
  exact ⟨_, wireMerge_of_addMethods k hinputs ho h₁ h₂⟩

theorem exists_unwireMethod (s : Solver) (q : MethodId Candidates) :
    ∃ s', (unwireMethod q).run.run s = (.ok (), s') := by
  unfold unwireMethod
  rw [Change.run_get_bind]
  split
  · rename_i hq
    exact ⟨_, editFlow_eq_ok.2 ⟨_, if_pos hq, rfl⟩⟩
  · exact ⟨s, pure_eq_ok.2 ⟨rfl, rfl⟩⟩

theorem exists_unwireCell (s : Solver) (c : CellId Candidates) :
    ∃ s', (unwireCell c).run.run s = (.ok (), s') := by
  unfold unwireCell
  rw [Change.run_get_bind]
  split
  · rename_i hc
    exact ⟨_, editFlow_eq_ok.2 ⟨_, if_pos hc, rfl⟩⟩
  · exact ⟨s, pure_eq_ok.2 ⟨rfl, rfl⟩⟩

theorem exists_unwireMerge (s : Solver) (k : MergeId) :
    ∃ s', (unwireMerge k).run.run s = (.ok (), s') := by
  unfold unwireMerge
  rw [Change.run_get_bind]
  split
  · exact ⟨s, pure_eq_ok.2 ⟨rfl, rfl⟩⟩
  · rename_i w hw
    obtain ⟨s₁, h₁⟩ := exists_unwireMethod
      { s with wirings := s.wirings.erase k, roster := s.roster.vacate k } w.selectMethod
    obtain ⟨s₂, h₂⟩ := exists_unwireMethod s₁ w.mergeMethod
    obtain ⟨s₃, h₃⟩ := exists_unwireCell s₂ w.candidates
    exact ⟨s₃, bind_eq_ok.2 ⟨_, _, modify_eq_ok.2 rfl, bind_eq_ok.2 ⟨_, s₁, h₁,
      bind_eq_ok.2 ⟨_, s₂, h₂, h₃⟩⟩⟩⟩

theorem exists_unwireCluster (s : Solver) (id : ClusterId) :
    ∃ s', (unwireCluster id).run.run s = (.ok (), s') := by
  unfold unwireCluster
  rw [Change.run_get_bind]
  split
  · exact ⟨s, pure_eq_ok.2 ⟨rfl, rfl⟩⟩
  · rename_i c hc
    obtain ⟨s₁, h₁⟩ := exists_unwireCell { s with cells := s.cells.erase id } c
    exact ⟨s₁, bind_eq_ok.2 ⟨_, _, modify_eq_ok.2 rfl, h₁⟩⟩

/-- A selector can be replaced at any time. -/
theorem Mirrors.exists_rebuildSelector (h : Mirrors s.decomposition s) (k : MergeId) :
    ∃ s', (Solver.rebuildSelector k).run.run s = (.ok (), s') := by
  unfold Solver.rebuildSelector
  rw [Change.run_get_bind]
  split
  · rename_i m w hm hw
    obtain ⟨out, name, selector, hout, hselect⟩ := (h.computes k m w hm hw).select
    obtain ⟨inputs, hin, -⟩ := (h.computes k m w hm hw).merge
    obtain ⟨cells, hcells⟩ := exists_mapM_cellOf fun id hid => by
      obtain ⟨n, hn, rfl⟩ := List.mem_iff_getElem.1 hid
      exact ⟨_, hin.get hn (hin.length_eq ▸ hn)⟩
    have hthere : s.flow.methods.contains w.selectMethod = true :=
      Registry.contains_iff.2 (Registry.mem_keys_of_find? hselect)
    -- Once the old method is dropped its output is free for the new one.
    obtain ⟨select, g, hg⟩ := h.formed.exists_replaceMethod hselect rfl
      (selectMethod ("select:" ++ s.clusterText m.output) (s.selectorFor m))
    have hinstall := installSelector_of_addMethod
      (s := { s with flow := s.flow.dropMethod w.selectMethod }) hout hg
    exact ⟨_, bind_eq_ok.2 ⟨cells, _, hcells, bind_eq_ok.2 ⟨(), _,
      editFlow_eq_ok.2 ⟨_, if_pos hthere, rfl⟩,
      bind_eq_ok.2 ⟨select, _, hinstall, modify_eq_ok.2 rfl⟩⟩⟩⟩
  · exact ⟨s, pure_eq_ok.2 ⟨rfl, rfl⟩⟩

/-! ### What is inconsistent stays tracked -/

theorem sane_unwireMethod {g g' : Dataflow Candidates} (h : g.Sane)
    (hg : g' = g ∧ q ∉ g.methods.keys ∨ g' = g.dropMethod q) : g'.Sane := by
  rcases hg with ⟨rfl, -⟩ | rfl
  · exact h
  · exact h.dropMethod q

theorem sane_unwireCell {g g' : Dataflow Candidates} (h : g.Sane)
    (hg : g' = g ∧ c ∉ g.cells.keys ∨ g.removeCell c = .ok g') : g'.Sane := by
  rcases hg with ⟨rfl, -⟩ | hg
  · exact h
  · exact h.removeCell hg

theorem sane_replay {e : Edit} (h : s.flow.Sane) (hr : (replay e).run.run s = (.ok (), s')) :
    s'.flow.Sane := by
  match e with
  | .clusterAdded id =>
    obtain ⟨label, rfl⟩ := wireCluster_eq_ok hr
    exact h.addCell label true none
  | .mergeAdded k =>
    simp only [replay] at hr
    rw [Change.run_get_bind] at hr
    split at hr
    · obtain ⟨label, inputs, merge, g₁, out, select, g₂, -, h₁, -, h₂, rfl⟩ := wireMerge_eq_ok hr
      exact ((h.addCell label true none).addMethod h₁).addMethod h₂
    · obtain ⟨-, rfl⟩ := pure_eq_ok.1 hr
      exact h
  | .mergeRemoved k =>
    rcases Solver.unwireMerge_eq_ok hr with ⟨rfl, -⟩ | ⟨w, g₁, g₂, g₃, -, h₁, h₂, h₃, rfl⟩
    · exact h
    · exact sane_unwireCell (sane_unwireMethod (sane_unwireMethod h h₁) h₂) h₃
  | .clusterRemoved id =>
    rcases unwireCluster_eq_ok hr with ⟨rfl, -⟩ | ⟨c, g, -, hg, rfl⟩
    · exact h
    · exact sane_unwireCell h hg

theorem sane_rebuildSelector (h : s.flow.Sane)
    (hr : (rebuildSelector k).run.run s = (.ok (), s')) : s'.flow.Sane := by
  rcases rebuildSelector_eq_ok hr with ⟨rfl, -⟩ | ⟨m, w, out, select, g, -, -, -, hg, rfl⟩
  · exact h
  · exact (h.dropMethod w.selectMethod).addMethod hg

end Solver

end PlanarSketch
