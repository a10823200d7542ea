/-
The topology of a dataflow.

The topology is a graph beside the cells and methods, and every change of
these is made there too.  It has exactly the edges that the methods call for,
so a path of the topology is a chain of methods, and the search for cycles
looks for the right thing.

* `Arrow`, `Stands`: the edges and vertices that the methods call for;
* `Charted`: the topology has just these, kept by every change
  (`Charted.addCell`, `Charted.install`, `Charted.uninstall`,
  `Charted.eraseCell`);
* `Charted.leadsTo_iff`: a path of the topology is a chain of methods.
-/
import PlanarSketch.Proofs.Graphs
import PlanarSketch.Proofs.Isolation

namespace PlanarSketch.Dataflow

variable {V : Type} {g g' : Dataflow V} {a b c : CellId V} {m : MethodId V} {i : Installed V}
  {x y : FlowNode V}

/-! ### What the methods call for -/

/-- A method reads a cell, or it writes one. -/
inductive Arrow (g : Dataflow V) : FlowNode V → FlowNode V → Prop
  | reads {m : MethodId V} {i : Installed V} {c : CellId V} (hi : g.methods.find? m = some i)
      (hc : c ∈ i.inputs) : Arrow g (.cell c) (.method m)
  | writes {m : MethodId V} {i : Installed V} {c : CellId V} (hi : g.methods.find? m = some i)
      (hc : c ∈ i.outputs) : Arrow g (.method m) (.cell c)

/-- A cell is in use, or a method is there and knows a cell. -/
def Stands (g : Dataflow V) : FlowNode V → Prop
  | .cell c => c ∈ g.cells.keys
  | .method m => ∃ i, g.methods.find? m = some i ∧ i.inputs ++ i.outputs ≠ []

/-- The topology has just the vertices and edges that the cells and methods call for. -/
def Charted (g : Dataflow V) : Prop := g.topology.Shows g.Stands fun x _ y => g.Arrow x y

theorem Charted.hasEdge_iff (h : g.Charted) (x y : FlowNode V) :
    g.topology.hasEdge x y = true ↔ g.Arrow x y :=
  (Graph.Shows.hasEdge_iff h).trans ⟨fun ⟨_, h⟩ => h, fun h => ⟨(), h⟩⟩

theorem Arrow.mono (h : g.Arrow x y)
    (hm : ∀ m i, g.methods.find? m = some i → g'.methods.find? m = some i) : g'.Arrow x y := by
  cases h with
  | reads hi hc => exact .reads (hm _ _ hi) hc
  | writes hi hc => exact .writes (hm _ _ hi) hc

theorem arrow_congr (hm : g.methods = g'.methods) : g.Arrow x y ↔ g'.Arrow x y :=
  ⟨fun h => h.mono fun _ _ hi => hm ▸ hi, fun h => h.mono fun _ _ hi => hm ▸ hi⟩

theorem charted_empty : (empty : Dataflow V).Charted := by
  refine Graph.shows_empty.congr (fun x => iff_of_false id fun h => ?_)
    fun x _ y => iff_of_false id fun h => ?_
  · match x, h with
    | .cell c, h => cases h
    | .method m, ⟨i, hi, _⟩ => cases hi
  · cases h with
    | reads hi => cases hi
    | writes hi => cases hi

/-- Values play no part. -/
theorem Charted.congr (h : g.Charted) (ht : g'.topology = g.topology) (hm : g'.methods = g.methods)
    (hk : g'.cells.keys = g.cells.keys) : g'.Charted := by
  unfold Charted
  rw [ht]
  refine Graph.Shows.congr h (fun x => ?_) fun x _ y => arrow_congr hm.symm
  cases x with
  | cell c =>
    show c ∈ g.cells.keys ↔ c ∈ g'.cells.keys
    rw [hk]
  | method m =>
    show (∃ i, g.methods.find? m = some i ∧ _) ↔ ∃ i, g'.methods.find? m = some i ∧ _
    rw [hm]

/-! ### Changes -/

theorem Charted.addCell (h : g.Charted) (label : String) (multi : Bool) (v : Option V) :
    (g.addCell label multi v).2.Charted := by
  refine (Graph.Shows.addVertex h (.cell g.cells.nextKey)).congr (fun x => ?_) fun x _ y =>
    arrow_congr rfl
  cases x with
  | cell c =>
    show FlowNode.cell c = .cell g.cells.nextKey ∨ c ∈ g.cells.keys ↔ c ∈ (g.cells.insert _).keys
    rw [Registry.keys_insert, List.mem_append, List.mem_singleton, FlowNode.cell.injEq, or_comm]
  | method m => exact ⟨fun h => h.resolve_left nofun, .inr⟩

/-- A method goes with its edges. -/
theorem Charted.uninstall (h : g.Charted) (m : MethodId V) : (g.uninstall m).Charted := by
  refine (Graph.Shows.removeVertex h (.method m)).congr (fun x => ?_) fun x _ y => ?_
  · cases x with
    | cell c => exact and_iff_right nofun
    | method j =>
      show _ ∧ (∃ i, g.methods.find? j = some i ∧ _) ↔
        ∃ i, (g.methods.erase m).find? j = some i ∧ _
      simp only [Registry.find?_erase_eq_some, ne_eq, FlowNode.method.injEq, and_assoc,
        exists_and_left, eq_comm (a := j)]
  · constructor
    · -- An edge that does not touch the method belongs to another one.
      rintro ⟨harrow, hx, hy⟩
      cases harrow with
      | reads hi hc =>
        exact .reads (Registry.find?_erase_eq_some.2 ⟨fun e => hy (e ▸ rfl), hi⟩) hc
      | writes hi hc =>
        exact .writes (Registry.find?_erase_eq_some.2 ⟨fun e => hx (e ▸ rfl), hi⟩) hc
    · intro harrow
      cases harrow with
      | reads hi hc =>
        obtain ⟨hne, hi⟩ := Registry.find?_erase_eq_some.1 hi
        exact ⟨.reads hi hc, nofun, fun e => hne (FlowNode.method.inj e).symm⟩
      | writes hi hc =>
        obtain ⟨hne, hi⟩ := Registry.find?_erase_eq_some.1 hi
        exact ⟨.writes hi hc, fun e => hne (FlowNode.method.inj e).symm, nofun⟩

/-- A cell that no method knows goes without an edge. -/
theorem Charted.eraseCell (h : g.Charted)
    (hfree : ∀ m i, g.methods.find? m = some i → c ∉ i.inputs ++ i.outputs) :
    ({ g with
      cells := g.cells.erase c
      changed := g.changed.erase c
      topology := g.topology.removeVertex (.cell c) } : Dataflow V).Charted := by
  refine (Graph.Shows.removeVertex h (.cell c)).congr (fun x => ?_) fun x _ y => ?_
  · cases x with
    | cell d =>
      show _ ∧ d ∈ g.cells.keys ↔ d ∈ (g.cells.erase c).keys
      rw [Registry.keys_erase, List.mem_filter, decide_eq_true_eq, and_comm, ne_eq,
        FlowNode.cell.injEq]
    | method m => exact and_iff_right nofun
  · rw [and_iff_left_of_imp]
    · exact arrow_congr rfl
    · intro harrow
      cases harrow with
      | reads hi hc =>
        refine ⟨fun e => hfree _ _ hi ?_, nofun⟩
        rw [← FlowNode.cell.inj e]
        exact List.mem_append_left _ hc
      | writes hi hc =>
        refine ⟨nofun, fun e => hfree _ _ hi ?_⟩
        rw [← FlowNode.cell.inj e]
        exact List.mem_append_right _ hc

/-- A method whose cells are in use comes with its edges. -/
theorem Charted.install (h : g.Charted) (hcells : ∀ c ∈ i.inputs ++ i.outputs, c ∈ g.cells.keys) :
    (g.install i).Charted := by
  -- Edges from the inputs come first and then those to the outputs.
  have hreads := Graph.Shows.foldl_addEdge h FlowNode.cell (fun _ => .method g.methods.nextKey) ()
    i.inputs fun _ _ _ _ => rfl
  have hwrites := hreads.foldl_addEdge (fun _ => .method g.methods.nextKey) FlowNode.cell ()
    i.outputs fun _ _ _ _ => rfl
  refine hwrites.congr (fun x => ?_) fun x _ y => ?_
  · cases x with
    | cell c =>
      refine ⟨?_, fun hx => .inr (.inr hx)⟩
      rintro (⟨d, hd, he | he⟩ | ⟨d, hd, he | he⟩ | hx)
      · cases he
      · exact FlowNode.cell.inj he ▸ hcells d (List.mem_append_right _ hd)
      · exact FlowNode.cell.inj he ▸ hcells d (List.mem_append_left _ hd)
      · cases he
      · exact hx
    | method j =>
      constructor
      · -- The method stands in the graph as an end of some edge.
        have hnew : ∀ d ∈ i.inputs ++ i.outputs, j = g.methods.nextKey →
            (g.install i).Stands (.method j) := fun d hd e =>
          ⟨i, Registry.find?_insert_eq_some.2 (.inr ⟨e, rfl⟩), List.ne_nil_of_mem hd⟩
        rintro (⟨d, hd, he | he⟩ | ⟨d, hd, he | he⟩ | ⟨i', hi', hne⟩)
        · exact hnew d (List.mem_append_right _ hd) (FlowNode.method.inj he)
        · cases he
        · cases he
        · exact hnew d (List.mem_append_left _ hd) (FlowNode.method.inj he)
        · exact ⟨i', Registry.find?_insert_eq_some.2 (.inl hi'), hne⟩
      · rintro ⟨i', hi', hne⟩
        rcases Registry.find?_insert_eq_some.1 hi' with hi' | ⟨rfl, rfl⟩
        · exact .inr (.inr ⟨i', hi', hne⟩)
        · obtain ⟨d, hd⟩ := List.exists_mem_of_ne_nil _ hne
          rcases List.mem_append.1 hd with hd | hd
          · exact .inr (.inl ⟨d, hd, .inr rfl⟩)
          · exact .inl ⟨d, hd, .inl rfl⟩
  · constructor
    · rintro (⟨c, hc, rfl, -, rfl⟩ | ⟨c, hc, rfl, -, rfl⟩ | harrow)
      · exact .writes (Registry.find?_insert_eq_some.2 (.inr ⟨rfl, rfl⟩)) hc
      · exact .reads (Registry.find?_insert_eq_some.2 (.inr ⟨rfl, rfl⟩)) hc
      · exact harrow.mono fun j i' hj => Registry.find?_insert_eq_some.2 (.inl hj)
    · intro harrow
      cases harrow with
      | reads hi hc =>
        rcases Registry.find?_insert_eq_some.1 hi with hi | ⟨rfl, rfl⟩
        · exact .inr (.inr (.reads hi hc))
        · exact .inr (.inl ⟨_, hc, rfl, rfl, rfl⟩)
      | writes hi hc =>
        rcases Registry.find?_insert_eq_some.1 hi with hi | ⟨rfl, rfl⟩
        · exact .inr (.inr (.writes hi hc))
        · exact .inl ⟨_, hc, rfl, rfl, rfl⟩

/-! ### Paths -/

theorem mem_dependents : b ∈ g.dependents a ↔
    ∃ m i, g.methods.find? m = some i ∧ a ∈ i.inputs ∧ b ∈ i.outputs := by
  unfold dependents
  rw [List.mem_flatMap]
  constructor
  · rintro ⟨m, hm, hb⟩
    obtain ⟨i, hi, ha⟩ := mem_consumers.1 hm
    rw [outputs, hi] at hb
    exact ⟨m, i, hi, ha, hb⟩
  · rintro ⟨m, i, hi, ha, hb⟩
    refine ⟨m, mem_consumers.2 ⟨i, hi, ha⟩, ?_⟩
    rw [outputs, hi]
    exact hb

/-- Between cells, arrows lead along chains of methods. -/
theorem reaches_cell_iff : Relation.ReflTransGen g.Arrow (.cell a) (.cell b) ↔
    Relation.ReflTransGen (fun x y => y ∈ g.dependents x) a b := by
  constructor
  · -- A path may end at a method, which has been reached through one of its inputs.
    have hpath : ∀ x, Relation.ReflTransGen g.Arrow (.cell a) x → match x with
        | .cell d => Relation.ReflTransGen (fun x y => y ∈ g.dependents x) a d
        | .method m => ∃ i, g.methods.find? m = some i ∧
          ∃ d ∈ i.inputs, Relation.ReflTransGen (fun x y => y ∈ g.dependents x) a d := by
      intro x hx
      induction hx with
      | refl => exact .refl
      | tail _ harrow ih =>
        cases harrow with
        | reads hi hc => exact ⟨_, hi, _, hc, ih⟩
        | writes hi hc =>
          obtain ⟨i', hi', d, hd, hlead⟩ := ih
          rw [hi] at hi'
          obtain rfl := Option.some_inj.1 hi'
          exact hlead.tail (mem_dependents.2 ⟨_, _, hi, hd, hc⟩)
    exact hpath (.cell b)
  · intro hlead
    induction hlead with
    | refl => exact .refl
    | tail _ hstep ih =>
      obtain ⟨m, i, hi, hin, hout⟩ := mem_dependents.1 hstep
      exact (ih.tail (.reads hi hin)).tail (.writes hi hout)

/-- A cell leads to another one if a chain of methods does. -/
theorem Charted.leadsTo_iff (h : g.Charted)
    (hcells : ∀ m i, g.methods.find? m = some i → ∀ c ∈ i.inputs ++ i.outputs, c ∈ g.cells.keys)
    (ha : a ∈ g.cells.keys) : g.leadsTo a b = true ↔
      Relation.ReflTransGen (fun x y => y ∈ g.dependents x) a b := by
  have hedge : (fun x y => g.topology.hasEdge x y = true) = g.Arrow := by
    funext x y
    exact propext (h.hasEdge_iff x y)
  rw [leadsTo, Graph.Linked.isSome_path? h.1, h.2, h.2, hedge, reaches_cell_iff, ← and_assoc,
    and_iff_right_of_imp]
  intro hlead
  refine ⟨ha, ?_⟩
  rcases Relation.ReflTransGen.cases_tail hlead with rfl | ⟨d, -, hstep⟩
  · exact ha
  · obtain ⟨m, i, hi, -, hout⟩ := mem_dependents.1 hstep
    exact hcells m i hi b (List.mem_append_right _ hout)

end PlanarSketch.Dataflow
