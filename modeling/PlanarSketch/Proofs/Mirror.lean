/-
The dataflow mirrors the decomposition.

Every cluster has a cell, every merge a cell for its candidates, a method that
computes them and a selector, and there is nothing else beside the cell of the
prototype.  Each edit takes a mirror of the decomposition before it to one of
the decomposition after it.

* `Serves`, `Computes`: what a cell is for, and the methods of a merge;
* `Mirrors`: the correspondence;
* `Mirrors.wireCluster`, `Mirrors.wireMerge`, `Mirrors.unwireMerge`,
  `Mirrors.unwireCluster`, `Mirrors.rebuildSelector`: every change keeps it.
-/
import PlanarSketch.Proofs.Consistency
import PlanarSketch.Proofs.Wiring

namespace PlanarSketch

/-- What a cell of a solver is for. -/
inductive CellRole where
  | prototype
  | cluster (id : ClusterId)
  | candidates (k : MergeId)

/-- The cells in use are those that serve a purpose, each just one. -/
structure Allotted (cells : List (CellId Candidates))
    (serves : CellId Candidates → CellRole → Prop) : Prop where
  mem_iff : ∀ c, c ∈ cells ↔ ∃ r, serves c r
  unique : ∀ c r r', serves c r → serves c r' → r = r'

section Allotted

variable {cells cells' : List (CellId Candidates)}
  {serves serves' : CellId Candidates → CellRole → Prop} {a : CellId Candidates}

/-- A new cell serves a new purpose. -/
theorem Allotted.insert (r₀ : CellRole) (h : Allotted cells serves) (ha : a ∉ cells)
    (hc : ∀ c, c ∈ cells' ↔ c ∈ cells ∨ c = a)
    (hs : ∀ c r, serves' c r ↔ serves c r ∨ r = r₀ ∧ c = a) : Allotted cells' serves' := by
  have hfresh : ∀ r, ¬serves a r := fun r hr => ha ((h.mem_iff a).2 ⟨r, hr⟩)
  refine ⟨fun c => ?_, fun c r r' hr hr' => ?_⟩
  · rw [hc, h.mem_iff]
    simp only [hs, exists_or, exists_and_right, exists_eq, true_and]
  · rcases (hs c r).1 hr with hr | ⟨rfl, rfl⟩
    · rcases (hs c r').1 hr' with hr' | ⟨rfl, rfl⟩
      · exact h.unique c r r' hr hr'
      · exact absurd hr (hfresh r)
    · rcases (hs c r').1 hr' with hr' | ⟨rfl, -⟩
      · exact absurd hr' (hfresh r')
      · rfl

/-- A cell goes with its purpose. -/
theorem Allotted.erase {r₀ : CellRole} (h : Allotted cells serves) (ha : serves a r₀)
    (hc : ∀ c, c ∈ cells' ↔ c ∈ cells ∧ c ≠ a)
    (hs : ∀ c r, serves' c r ↔ serves c r ∧ r ≠ r₀) (hone : ∀ c, serves c r₀ → c = a) :
    Allotted cells' serves' := by
  refine ⟨fun c => ?_, fun c r r' hr hr' => ?_⟩
  · rw [hc, h.mem_iff]
    constructor
    · rintro ⟨⟨r, hr⟩, hne⟩
      refine ⟨r, (hs c r).2 ⟨hr, ?_⟩⟩
      rintro rfl
      exact hne (hone c hr)
    · rintro ⟨r, hr⟩
      obtain ⟨hr, hne⟩ := (hs c r).1 hr
      refine ⟨⟨r, hr⟩, ?_⟩
      rintro rfl
      exact hne (h.unique c r r₀ hr ha)
  · exact h.unique c r r' ((hs c r).1 hr).1 ((hs c r').1 hr').1

end Allotted

namespace Solver

open Decomposition

variable {s s' : Solver} {x x' : Decomposition} {id : ClusterId} {j k : MergeId} {m : Merge}
  {w : MergeWiring} {c : CellId Candidates} {r : CellRole} {q : MethodId Candidates}
  {i : Installed Candidates}

/-! ### Cells and methods of a solver -/

/-- The cell is there for a purpose. -/
def Serves (s : Solver) (c : CellId Candidates) : CellRole → Prop
  | .prototype => c = s.prototypeCell
  | .cluster id => s.cells.find? id = some c
  | .candidates k => ∃ w, s.wirings.find? k = some w ∧ w.candidates = c

section Serves

variable {g : Dataflow Candidates} {roster : Roster MergeId}

theorem serves_insertCell {a : CellId Candidates} (h : s.cells.find? id = none) :
    Serves { s with flow := g, cells := s.cells.insert id a } c r ↔
      s.Serves c r ∨ r = .cluster id ∧ c = a := by
  cases r with
  | prototype => simp [Serves]
  | cluster i =>
    rw [CellRole.cluster.injEq]
    exact OrderedMap.find?_insert_of_new h
  | candidates k => simp [Serves]

theorem serves_eraseCell : Serves { s with flow := g, cells := s.cells.erase id } c r ↔
    s.Serves c r ∧ r ≠ .cluster id := by
  cases r with
  | prototype => simp [Serves]
  | cluster i =>
    rw [ne_eq, CellRole.cluster.injEq]
    exact OrderedMap.find?_erase_eq_some
  | candidates k => simp [Serves]

theorem serves_insertWiring (h : s.wirings.find? k = none) :
    Serves { s with flow := g, wirings := s.wirings.insert k w, roster := roster } c r ↔
      s.Serves c r ∨ r = .candidates k ∧ c = w.candidates := by
  cases r with
  | prototype => simp [Serves]
  | cluster i => simp [Serves]
  | candidates j =>
    simp only [Serves, OrderedMap.find?_insert_of_new h, CellRole.candidates.injEq]
    constructor
    · rintro ⟨w', hw | ⟨rfl, rfl⟩, rfl⟩
      · exact .inl ⟨w', hw, rfl⟩
      · exact .inr ⟨rfl, rfl⟩
    · rintro (⟨w', hw, he⟩ | ⟨rfl, rfl⟩)
      · exact ⟨w', .inl hw, he⟩
      · exact ⟨w, .inr ⟨rfl, rfl⟩, rfl⟩

theorem serves_eraseWiring :
    Serves { s with flow := g, wirings := s.wirings.erase k, roster := roster } c r ↔
      s.Serves c r ∧ r ≠ .candidates k := by
  cases r with
  | prototype => simp [Serves]
  | cluster i => simp [Serves]
  | candidates j =>
    simp only [Serves, OrderedMap.find?_erase_eq_some, ne_eq, CellRole.candidates.injEq]
    constructor
    · rintro ⟨w', ⟨hw, hne⟩, he⟩
      exact ⟨⟨w', hw, he⟩, hne⟩
    · rintro ⟨⟨w', hw, he⟩, hne⟩
      exact ⟨w', ⟨hw, hne⟩, he⟩

/-- Other methods for the same candidates. -/
theorem serves_replaceWiring {w' : MergeWiring} (h : s.wirings.find? k = some w)
    (hw : w'.candidates = w.candidates) :
    Serves { s with flow := g, wirings := s.wirings.insert k w' } c r ↔ s.Serves c r := by
  cases r with
  | prototype => simp [Serves]
  | cluster i => simp [Serves]
  | candidates j =>
    by_cases he : k = j
    · subst he
      simp [Serves, h, hw]
    · simp [Serves, OrderedMap.find?_insert, he]

end Serves

/-- The methods of a merge: one computes candidates from those of the inputs, the other one selects
among them for the output. -/
structure Computes (s : Solver) (m : Merge) (w : MergeWiring) : Prop where
  merge : ∃ inputs, List.Forall₂ (fun id c => s.cells.find? id = some c) m.inputs inputs ∧
    s.flow.methods.find? w.mergeMethod =
      some ⟨(mergeMethod m.rule m.geometry).lift, inputs, [w.candidates]⟩
  select : ∃ out name selector, s.cells.find? m.output = some out ∧
    s.flow.methods.find? w.selectMethod =
      some ⟨selectMethod name selector, [w.candidates, s.prototypeCell], [out]⟩

/-- The method is one of a merge. -/
def Operates (s : Solver) (q : MethodId Candidates) (k : MergeId) : Prop :=
  ∃ w, s.wirings.find? k = some w ∧ (q = w.mergeMethod ∨ q = w.selectMethod)

/-- The cells and methods are those of the clusters and merges of a decomposition. -/
structure Mirrors (x : Decomposition) (s : Solver) : Prop where
  clusters : ∀ id, x.Live id ↔ ∃ c, s.cells.find? id = some c
  merges : ∀ k, (∃ m, x.merges.find? k = some m) ↔ ∃ w, s.wirings.find? k = some w
  computes : ∀ k m w, x.merges.find? k = some m → s.wirings.find? k = some w → s.Computes m w
  methods : ∀ q i, s.flow.methods.find? q = some i → ∃ k, s.Operates q k
  allotted : Allotted s.flow.cells.keys s.Serves
  formed : s.flow.Formed

theorem Computes.mono (h : s.Computes m w)
    (hc : ∀ id ∈ m.inputs ++ [m.output], ∀ c, s.cells.find? id = some c →
      s'.cells.find? id = some c)
    (hm : ∀ i, s.flow.methods.find? w.mergeMethod = some i →
      s'.flow.methods.find? w.mergeMethod = some i)
    (hs : ∀ i, s.flow.methods.find? w.selectMethod = some i →
      s'.flow.methods.find? w.selectMethod = some i)
    (hp : s'.prototypeCell = s.prototypeCell) : s'.Computes m w := by
  obtain ⟨inputs, hin, hmerge⟩ := h.merge
  obtain ⟨out, name, selector, hout, hselect⟩ := h.select
  refine ⟨⟨inputs, ?_, hm _ hmerge⟩, out, name, selector,
    hc _ (List.mem_append_right _ (List.mem_singleton_self _)) _ hout, ?_⟩
  · refine List.forall₂_iff_get.2 ⟨hin.length_eq, fun n h₁ h₂ => ?_⟩
    exact hc _ (List.mem_append_left _ (List.get_mem ..)) _ (hin.get h₁ h₂)
  · rw [hp]
    exact hs _ hselect

/-- The state of the cells and methods is what counts. -/
theorem Mirrors.congr (h : Mirrors x s) (hl : ∀ id, x'.Live id ↔ x.Live id)
    (hx : x'.merges = x.merges) (hc : s'.cells = s.cells) (hw : s'.wirings = s.wirings)
    (hp : s'.prototypeCell = s.prototypeCell) (hm : s'.flow.methods = s.flow.methods)
    (hk : s'.flow.cells.keys = s.flow.cells.keys) (hformed : s'.flow.Formed) : Mirrors x' s' := by
  -- Which cell serves what is read off the maps that are kept.
  have hserves : s'.Serves = s.Serves := by
    funext c r
    cases r <;> simp only [Serves, hc, hw, hp]
  constructor
  · intro id
    rw [hl, hc]
    exact h.clusters id
  · intro k
    rw [hx, hw]
    exact h.merges k
  · intro k m w hk hw'
    rw [hx] at hk
    rw [hw] at hw'
    exact (h.computes k m w hk hw').mono (fun _ _ _ he => hc ▸ he) (fun _ he => hm ▸ he)
      (fun _ he => hm ▸ he) hp
  · intro q i hq
    rw [hm] at hq
    unfold Operates
    rw [hw]
    exact h.methods q i hq
  · rw [hk, hserves]
    exact h.allotted
  · exact hformed

/-- What the methods of a merge compute. -/
theorem Mirrors.writes (h : Mirrors x s) (hq : s.flow.methods.find? q = some i)
    (ho : s.Operates q k) (hc : c ∈ i.outputs) : ∃ m, x.merges.find? k = some m ∧
      (s.Serves c (.candidates k) ∨ s.Serves c (.cluster m.output)) := by
  obtain ⟨w, hw, he⟩ := ho
  obtain ⟨m, hm⟩ := (h.merges k).2 ⟨w, hw⟩
  obtain ⟨inputs, -, hmerge⟩ := (h.computes k m w hm hw).merge
  obtain ⟨out, name, selector, hout, hselect⟩ := (h.computes k m w hm hw).select
  refine ⟨m, hm, ?_⟩
  rcases he with rfl | rfl
  · obtain rfl := Option.some_inj.1 (hmerge.symm.trans hq)
    exact .inl ⟨w, hw, (List.mem_singleton.1 hc).symm⟩
  · obtain rfl := Option.some_inj.1 (hselect.symm.trans hq)
    obtain rfl := List.mem_singleton.1 hc
    exact .inr hout

/-- What the methods of a merge know. -/
theorem Mirrors.knows (h : Mirrors x s) (hq : s.flow.methods.find? q = some i)
    (ho : s.Operates q k) (hc : c ∈ i.inputs ++ i.outputs) : ∃ m, x.merges.find? k = some m ∧
      (s.Serves c (.candidates k) ∨ s.Serves c .prototype ∨
        ∃ id, (id ∈ m.inputs ∨ id = m.output) ∧ s.Serves c (.cluster id)) := by
  -- The merge method reads the cells of the inputs; the selector reads the candidates and the
  -- prototype.
  rcases List.mem_append.1 hc with hc | hc
  · obtain ⟨w, hw, he⟩ := ho
    obtain ⟨m, hm⟩ := (h.merges k).2 ⟨w, hw⟩
    obtain ⟨inputs, hin, hmerge⟩ := (h.computes k m w hm hw).merge
    obtain ⟨out, name, selector, -, hselect⟩ := (h.computes k m w hm hw).select
    refine ⟨m, hm, ?_⟩
    rcases he with rfl | rfl
    · obtain rfl := Option.some_inj.1 (hmerge.symm.trans hq)
      obtain ⟨n, hn, he⟩ := List.mem_iff_getElem.1 hc
      have hlt : n < m.inputs.length := hin.length_eq ▸ hn
      refine .inr (.inr ⟨m.inputs[n], .inl (List.getElem_mem hlt), ?_⟩)
      rw [← he]
      exact hin.get hlt hn
    · obtain rfl := Option.some_inj.1 (hselect.symm.trans hq)
      simp only [List.mem_cons, List.not_mem_nil, or_false] at hc
      rcases hc with rfl | rfl
      · exact .inl ⟨w, hw, rfl⟩
      · exact .inr (.inl rfl)
  · obtain ⟨m, hm, hs | hs⟩ := h.writes hq ho hc
    · exact ⟨m, hm, .inl hs⟩
    · exact ⟨m, hm, .inr (.inr ⟨m.output, .inr rfl, hs⟩)⟩

/-- Only the methods of a merge know the cell of its candidates. -/
theorem Mirrors.eq_of_candidates (h : Mirrors x s) (hq : s.flow.methods.find? q = some i)
    (ho : s.Operates q k) (hc : c ∈ i.inputs ++ i.outputs) (hr : s.Serves c (.candidates j)) :
    k = j := by
  obtain ⟨m, -, hs | hs | ⟨id, -, hs⟩⟩ := h.knows hq ho hc
  · exact CellRole.candidates.inj (h.allotted.unique c _ _ hs hr)
  · cases h.allotted.unique c _ _ hs hr
  · cases h.allotted.unique c _ _ hs hr

/-- The methods of a merge know the cell of its candidates. -/
theorem Mirrors.knows_candidates (h : Mirrors x s) (hk : s.wirings.find? k = some w)
    (hq : q = w.mergeMethod ∨ q = w.selectMethod) :
    ∃ i, s.flow.methods.find? q = some i ∧ w.candidates ∈ i.inputs ++ i.outputs := by
  obtain ⟨m, hm⟩ := (h.merges k).2 ⟨w, hk⟩
  obtain ⟨inputs, -, hmerge⟩ := (h.computes k m w hm hk).merge
  obtain ⟨out, name, selector, -, hselect⟩ := (h.computes k m w hm hk).select
  rcases hq with rfl | rfl
  · exact ⟨_, hmerge, by simp⟩
  · exact ⟨_, hselect, by simp⟩

/-- A method is one of one merge. -/
theorem Mirrors.eq_of_operates (h : Mirrors x s) (hk : s.Operates q k) (hj : s.Operates q j) :
    k = j := by
  obtain ⟨w, hw, hq⟩ := hj
  obtain ⟨i, hi, hc⟩ := h.knows_candidates hw hq
  exact h.eq_of_candidates hi hk hc ⟨w, hw, rfl⟩

/-- The two methods of a merge are different. -/
theorem Mirrors.mergeMethod_ne (h : Mirrors x s) (hk : s.wirings.find? k = some w) :
    w.mergeMethod ≠ w.selectMethod := by
  obtain ⟨m, hm⟩ := (h.merges k).2 ⟨w, hk⟩
  obtain ⟨inputs, -, hmerge⟩ := (h.computes k m w hm hk).merge
  obtain ⟨out, name, selector, hout, hselect⟩ := (h.computes k m w hm hk).select
  intro he
  rw [he, hselect] at hmerge
  have hcell : out = w.candidates := by
    have houts := congrArg Installed.outputs (Option.some_inj.1 hmerge)
    exact List.singleton_inj.1 houts
  have hrole := h.allotted.unique out (.cluster m.output) (.candidates k) hout ⟨w, hk, hcell.symm⟩
  cases hrole

/-! ### One edit -/

/-- A new cluster gets a cell of its own. -/
theorem Mirrors.wireCluster (h : Mirrors x s) (hid : ¬x.Live id)
    (hl : ∀ i, x'.Live i ↔ x.Live i ∨ i = id) (hm : x'.merges = x.merges)
    (hr : (wireCluster id).run.run s = (.ok (), s')) : Mirrors x' s' := by
  obtain ⟨label, rfl⟩ := wireCluster_eq_ok hr
  -- The cluster was not live, so it had no cell.
  have hnew : s.cells.find? id = none :=
    Option.eq_none_iff_forall_ne_some.2 fun c hc => hid ((h.clusters id).2 ⟨c, hc⟩)
  have hfind : ∀ i c, (s.cells.insert id s.flow.cells.nextKey).find? i = some c ↔
      s.cells.find? i = some c ∨ i = id ∧ c = s.flow.cells.nextKey := fun _ _ =>
    OrderedMap.find?_insert_of_new hnew
  constructor
  · intro i
    rw [hl, h.clusters]
    simp only [hfind, exists_or, exists_and_left, exists_eq, and_true]
  · rw [hm]
    exact h.merges
  · intro k m w hk hw
    rw [hm] at hk
    exact (h.computes k m w hk hw).mono (fun i _ c hc => (hfind i c).2 (.inl hc)) (fun _ he => he)
      (fun _ he => he) rfl
  · exact h.methods
  · refine h.allotted.insert (.cluster id) s.flow.cells.nextKey_not_mem_keys (fun c => ?_)
      fun c r => serves_insertCell hnew
    show c ∈ (s.flow.cells.insert _).keys ↔ _
    rw [Registry.keys_insert, List.mem_append, List.mem_singleton]
  · exact h.formed.addCell label true none

/-- A new merge gets a cell for its candidates and two methods. -/
theorem Mirrors.wireMerge (h : Mirrors x s) (hk : x.merges.find? k = none)
    (hl : ∀ i, x'.Live i ↔ x.Live i)
    (hm : ∀ j m', x'.merges.find? j = some m' ↔ x.merges.find? j = some m' ∨ j = k ∧ m' = m)
    (hr : (wireMerge k m).run.run s = (.ok (), s')) : Mirrors x' s' := by
  obtain ⟨label, inputs, merge, g₁, out, select, g₂, hin, h₁, hout, h₂, rfl⟩ := wireMerge_eq_ok hr
  have hnew : s.wirings.find? k = none := by
    refine Option.eq_none_iff_forall_ne_some.2 fun w hw => ?_
    obtain ⟨m', hm'⟩ := (h.merges k).2 ⟨w, hw⟩
    rw [hk] at hm'
    cases hm'
  have hfind : ∀ q i, g₂.methods.find? q = some i ↔ (s.flow.methods.find? q = some i ∨
      q = merge ∧ i = ⟨(mergeMethod m.rule m.geometry).lift, inputs, [s.flow.cells.nextKey]⟩) ∨
      q = select ∧ i = ⟨selectMethod ("select:" ++ s.clusterText m.output) (s.selectorFor m),
        [s.flow.cells.nextKey, s.prototypeCell], [out]⟩ := by
    intro q i
    rw [Dataflow.find?_addMethod h₂, Dataflow.find?_addMethod h₁]
    rfl
  have hwirings : ∀ j w, (s.wirings.insert k ⟨s.flow.cells.nextKey, merge, select⟩).find? j =
      some w ↔ s.wirings.find? j = some w ∨ j = k ∧ w = ⟨s.flow.cells.nextKey, merge, select⟩ :=
    fun _ _ => OrderedMap.find?_insert_of_new hnew
  constructor
  · intro i
    rw [hl]
    exact h.clusters i
  · intro j
    simp only [hm, hwirings, exists_or, exists_and_left, exists_eq, and_true]
    rw [h.merges]
  · intro j m' w hj hw
    -- An old wiring belongs to an old merge, and the new wiring to the new one.
    rcases (hwirings j w).1 hw with hold | ⟨rfl, rfl⟩
    · rcases (hm j m').1 hj with hj | ⟨rfl, -⟩
      · have hold := h.computes j m' w hj hold
        exact hold.mono (fun _ _ _ hc => hc) (fun i hi => (hfind _ i).2 (.inl (.inl hi)))
          (fun i hi => (hfind _ i).2 (.inl (.inl hi))) rfl
      · rw [hnew] at hold
        cases hold
    · rcases (hm j m').1 hj with hj | ⟨-, rfl⟩
      · rw [hk] at hj
        cases hj
      · exact ⟨⟨inputs, hin, (hfind _ _).2 (.inl (.inr ⟨rfl, rfl⟩))⟩, out, _, _, hout,
          (hfind _ _).2 (.inr ⟨rfl, rfl⟩)⟩
  · intro q i hq
    rcases (hfind q i).1 hq with (hq | ⟨rfl, -⟩) | ⟨rfl, -⟩
    · obtain ⟨j, w, hw, he⟩ := h.methods q i hq
      exact ⟨j, w, (hwirings j w).2 (.inl hw), he⟩
    · exact ⟨k, _, (hwirings k _).2 (.inr ⟨rfl, rfl⟩), .inl rfl⟩
    · exact ⟨k, _, (hwirings k _).2 (.inr ⟨rfl, rfl⟩), .inr rfl⟩
  · refine h.allotted.insert (.candidates k) s.flow.cells.nextKey_not_mem_keys (fun c => ?_)
      fun c r => serves_insertWiring hnew
    show c ∈ g₂.cells.keys ↔ _
    rw [Dataflow.cells_addMethod h₂, Dataflow.cells_addMethod h₁]
    show c ∈ (s.flow.cells.insert _).keys ↔ _
    rw [Registry.keys_insert, List.mem_append, List.mem_singleton]
  · exact ((h.formed.addCell label true none).addMethod h₁).addMethod h₂

/-- The methods of a merge and the cell of its candidates are taken out, and nothing else. -/
theorem Mirrors.unwireMerge_eq_ok (h : Mirrors x s) (hw : s.wirings.find? k = some w)
    (hr : (unwireMerge k).run.run s = (.ok (), s')) :
    ∃ g, s' = { s with flow := g, wirings := s.wirings.erase k, roster := s.roster.vacate k } ∧
      (∀ q i, g.methods.find? q = some i ↔
        s.flow.methods.find? q = some i ∧ ¬s.Operates q k) ∧
      (∀ c, c ∈ g.cells.keys ↔ c ∈ s.flow.cells.keys ∧ c ≠ w.candidates) ∧ g.Formed := by
  rcases Solver.unwireMerge_eq_ok hr with ⟨-, hnone⟩ | ⟨w', g₁, g₂, g₃, hw', h₁, h₂, h₃, rfl⟩
  · rw [hw] at hnone
    cases hnone
  obtain rfl := Option.some_inj.1 (hw.symm.trans hw')
  -- All three are still there, so all three are taken out.
  obtain ⟨i₁, hi₁, -⟩ := h.knows_candidates hw (.inr rfl)
  obtain ⟨i₂, hi₂, -⟩ := h.knows_candidates hw (.inl rfl)
  obtain rfl : g₁ = s.flow.dropMethod w.selectMethod :=
    h₁.resolve_left fun hno => hno.2 (Registry.mem_keys_of_find? hi₁)
  have hi₂' := Dataflow.find?_dropMethod.2 ⟨(h.mergeMethod_ne hw).symm, hi₂⟩
  obtain rfl : g₂ = (s.flow.dropMethod w.selectMethod).dropMethod w.mergeMethod :=
    h₂.resolve_left fun hno => hno.2 (Registry.mem_keys_of_find? hi₂')
  have hcell : w.candidates ∈ s.flow.cells.keys :=
    (h.allotted.mem_iff _).2 ⟨.candidates k, w, hw, rfl⟩
  have h₃ := h₃.resolve_left fun hno => hno.2 (by
    rwa [Dataflow.keys_dropMethod, Dataflow.keys_dropMethod])
  have hformed := (h.formed.dropMethod w.selectMethod).dropMethod w.mergeMethod
  obtain ⟨hmethods, hcells⟩ := hformed.removeCell_eq_ok h₃
  refine ⟨g₃, rfl, fun q i => ?_, fun c => ?_, hformed.removeCell h₃⟩
  · rw [hmethods, Dataflow.find?_dropMethod, Dataflow.find?_dropMethod]
    constructor
    · rintro ⟨⟨hne₂, hne₁, hq⟩, -⟩
      refine ⟨hq, ?_⟩
      rintro ⟨w', hw', he⟩
      obtain rfl := Option.some_inj.1 (hw.symm.trans hw')
      exact he.elim (Ne.symm hne₂) (Ne.symm hne₁)
    · rintro ⟨hq, hno⟩
      refine ⟨⟨fun he => hno ⟨w, hw, .inl he.symm⟩, fun he => hno ⟨w, hw, .inr he.symm⟩, hq⟩, ?_⟩
      intro hc
      obtain ⟨j, hj⟩ := h.methods q i hq
      exact hno (h.eq_of_candidates hq hj hc ⟨w, hw, rfl⟩ ▸ hj)
  · rw [hcells, Dataflow.keys_dropMethod, Dataflow.keys_dropMethod]

/-- A merge that is undone takes its methods and the cell of its candidates with it. -/
theorem Mirrors.unwireMerge (h : Mirrors x s) (hk : x.merges.find? k = some m)
    (hl : ∀ i, x'.Live i ↔ x.Live i)
    (hm : ∀ j m', x'.merges.find? j = some m' ↔ k ≠ j ∧ x.merges.find? j = some m')
    (hr : (unwireMerge k).run.run s = (.ok (), s')) : Mirrors x' s' := by
  obtain ⟨w, hw⟩ := (h.merges k).1 ⟨m, hk⟩
  obtain ⟨g, rfl, hfind, hcells, hformed⟩ := h.unwireMerge_eq_ok hw hr
  constructor
  · intro i
    rw [hl]
    exact h.clusters i
  · intro j
    simp only [hm, OrderedMap.find?_erase_eq_some, exists_and_left, exists_and_right]
    rw [h.merges, and_comm, ne_comm]
  · intro j m' w' hj hw'
    obtain ⟨hne, hj⟩ := (hm j m').1 hj
    obtain ⟨hw', -⟩ := OrderedMap.find?_erase_eq_some.1 hw'
    -- The methods of another merge are not those that are removed.
    have hother : ∀ q, q = w'.mergeMethod ∨ q = w'.selectMethod → ¬s.Operates q k := fun q hq ho =>
      hne (h.eq_of_operates ho ⟨w', hw', hq⟩)
    exact (h.computes j m' w' hj hw').mono (fun _ _ _ hc => hc)
      (fun i hi => (hfind _ i).2 ⟨hi, hother _ (.inl rfl)⟩)
      (fun i hi => (hfind _ i).2 ⟨hi, hother _ (.inr rfl)⟩) rfl
  · intro q i hq
    obtain ⟨hq, hno⟩ := (hfind q i).1 hq
    obtain ⟨j, w', hw', he⟩ := h.methods q i hq
    exact ⟨j, w', OrderedMap.find?_erase_eq_some.2 ⟨hw', fun hj => hno ⟨w', hj ▸ hw', he⟩⟩, he⟩
  · have hserves : s.Serves w.candidates (.candidates k) := ⟨w, hw, rfl⟩
    refine h.allotted.erase hserves hcells (fun c r => serves_eraseWiring) ?_
    rintro c ⟨w', hw', rfl⟩
    rw [Option.some_inj.1 (hw.symm.trans hw')]
  · exact hformed

/-- A cluster that no merge reads or computes goes with its cell. -/
theorem Mirrors.unwireCluster (h : Mirrors x s) (hid : x.Live id)
    (hfree : ∀ k m, x.merges.find? k = some m → id ∉ m.inputs ∧ m.output ≠ id)
    (hl : ∀ i, x'.Live i ↔ i ≠ id ∧ x.Live i) (hm : x'.merges = x.merges)
    (hr : (unwireCluster id).run.run s = (.ok (), s')) : Mirrors x' s' := by
  obtain ⟨c, hc⟩ := (h.clusters id).1 hid
  rcases unwireCluster_eq_ok hr with ⟨-, hnone⟩ | ⟨c', g, hc', hg, rfl⟩
  · rw [hc] at hnone
    cases hnone
  obtain rfl := Option.some_inj.1 (hc.symm.trans hc')
  have hcell : c ∈ s.flow.cells.keys := (h.allotted.mem_iff _).2 ⟨.cluster id, hc⟩
  have hg := hg.resolve_left fun hno => hno.2 hcell
  obtain ⟨hmethods, hcells⟩ := h.formed.removeCell_eq_ok hg
  -- No method reads or writes the cell: its merge would read or compute the cluster.
  have hfind : ∀ q i, g.methods.find? q = some i ↔ s.flow.methods.find? q = some i := by
    intro q i
    rw [hmethods, and_iff_left_iff_imp]
    intro hq hmem
    obtain ⟨k, hk⟩ := h.methods q i hq
    obtain ⟨m, hm, hs | hs | ⟨i', hi', hs⟩⟩ := h.knows hq hk hmem
    · cases h.allotted.unique c _ (.cluster id) hs hc
    · cases h.allotted.unique c _ (.cluster id) hs hc
    · obtain rfl := CellRole.cluster.inj (h.allotted.unique c _ (.cluster id) hs hc)
      exact hi'.elim (hfree k m hm).1 fun he => (hfree k m hm).2 he.symm
  constructor
  · intro i
    rw [hl, h.clusters, and_comm]
    simp only [OrderedMap.find?_erase_eq_some, exists_and_right]
  · rw [hm]
    exact h.merges
  · intro k m w hk hw
    rw [hm] at hk
    refine (h.computes k m w hk hw).mono
      (fun i hi c hc => OrderedMap.find?_erase_eq_some.2 ⟨hc, ?_⟩)
      (fun i hi => (hfind _ i).2 hi) (fun i hi => (hfind _ i).2 hi) rfl
    rintro rfl
    rcases List.mem_append.1 hi with hi | hi
    · exact (hfree k m hk).1 hi
    · exact (hfree k m hk).2 (List.mem_singleton.1 hi).symm
  · exact fun q i hq => h.methods q i ((hfind q i).1 hq)
  · have hserves : s.Serves c (.cluster id) := hc
    refine h.allotted.erase hserves hcells (fun c r => serves_eraseCell) fun c' hc' => ?_
    exact Option.some_inj.1 (hc'.symm.trans hc)
  · exact h.formed.removeCell hg

/-- A new selector takes the place of the old one. -/
theorem Mirrors.rebuildSelector (h : Mirrors s.decomposition s)
    (hr : (rebuildSelector k).run.run s = (.ok (), s')) : Mirrors s'.decomposition s' := by
  rcases rebuildSelector_eq_ok hr with ⟨rfl, -⟩ | ⟨m, w, out, select, g, hm, hw, hout, hg, rfl⟩
  · exact h
  -- The old selecting method goes and the new one comes; the merging method stays.
  have hfind : ∀ q i, g.methods.find? q = some i ↔
      w.selectMethod ≠ q ∧ s.flow.methods.find? q = some i ∨ q = select ∧
        i = ⟨selectMethod ("select:" ++ s.clusterText m.output) (s.selectorFor m),
          [w.candidates, s.prototypeCell], [out]⟩ := by
    intro q i
    rw [Dataflow.find?_addMethod hg, Dataflow.find?_dropMethod]
  have hwirings : ∀ j w', (s.wirings.insert k { w with selectMethod := select }).find? j =
      some w' ↔ k = j ∧ { w with selectMethod := select } = w' ∨
        k ≠ j ∧ s.wirings.find? j = some w' := by
    intro j w'
    rw [OrderedMap.find?_insert]
    by_cases he : k = j <;> simp [he]
  have hserves : Serves { s with
      flow := g, wirings := s.wirings.insert k { w with selectMethod := select } } = s.Serves := by
    funext c r
    exact propext (serves_replaceWiring hw rfl)
  constructor
  · exact h.clusters
  · intro j
    rw [h.merges]
    by_cases he : k = j
    · subst he
      simp [hw]
    · simp [OrderedMap.find?_insert, he]
  · intro j m' w' hj hw'
    rcases (hwirings j w').1 hw' with ⟨rfl, rfl⟩ | ⟨hne, hold⟩
    · obtain rfl := Option.some_inj.1 (hm.symm.trans hj)
      obtain ⟨inputs, hin, hmerge⟩ := (h.computes k m w hm hw).merge
      exact ⟨⟨inputs, hin, (hfind _ _).2 (.inl ⟨(h.mergeMethod_ne hw).symm, hmerge⟩)⟩, out, _, _,
        hout, (hfind _ _).2 (.inr ⟨rfl, rfl⟩)⟩
    · -- The methods of another merge are not the selector that is replaced.
      have hother : ∀ q, q = w'.mergeMethod ∨ q = w'.selectMethod → w.selectMethod ≠ q := by
        rintro q hq rfl
        exact hne (h.eq_of_operates ⟨w, hw, .inr rfl⟩ ⟨w', hold, hq⟩)
      exact (h.computes j m' w' hj hold).mono (fun _ _ _ hc => hc)
        (fun i hi => (hfind _ i).2 (.inl ⟨hother _ (.inl rfl), hi⟩))
        (fun i hi => (hfind _ i).2 (.inl ⟨hother _ (.inr rfl), hi⟩)) rfl
  · intro q i hq
    rcases (hfind q i).1 hq with ⟨hne, hq⟩ | ⟨rfl, -⟩
    · obtain ⟨j, w', hw', he⟩ := h.methods q i hq
      by_cases hj : k = j
      · subst hj
        obtain rfl := Option.some_inj.1 (hw.symm.trans hw')
        exact ⟨k, _, (hwirings k _).2 (.inl ⟨rfl, rfl⟩), .inl (he.resolve_right (Ne.symm hne))⟩
      · exact ⟨j, w', (hwirings j w').2 (.inr ⟨hj, hw'⟩), he⟩
    · exact ⟨k, _, (hwirings k _).2 (.inl ⟨rfl, rfl⟩), .inr rfl⟩
  · rw [hserves]
    show Allotted g.cells.keys _
    rw [Dataflow.cells_addMethod hg, Dataflow.keys_dropMethod]
    exact h.allotted
  · exact (h.formed.dropMethod w.selectMethod).addMethod hg

end Solver

end PlanarSketch
