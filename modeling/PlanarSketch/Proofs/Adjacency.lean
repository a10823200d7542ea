/-
Graphs enumerate by age.

What a change does to edges says nothing of the order in which they are
enumerated.  A vertex or an edge that is new comes last, one that is already
there keeps its place, and a vertex that is removed only leaves a gap.  So the
graph of points and constraints enumerates the constraints on a point in the
order in which they were added.

* `vertices_addVertex`, `Linked.ingoing_addEdge`, `Linked.ingoing_removeVertex`
  and the like: vertices and predecessors, in order, after each change;
* `ConstraintGraph.Joins`: the graph of given points and constraints, kept by
  every change (`Joins.addPoint`, `Joins.removePoint`, `Joins.addConstraint`,
  `Joins.removeConstraint`).
-/
import PlanarSketch.Problem.ConstraintGraph
import PlanarSketch.Proofs.Collection
import PlanarSketch.Proofs.Graphs

namespace PlanarSketch

namespace Graph

variable {V E : Type} [DecidableEq V] {g : Graph V E} {a b v x y : V} {w : E}

/-! ### Vertices in order -/

theorem vertices_addVertex (g : Graph V E) (v : V) :
    (g.addVertex v).vertices = if v ∈ g.vertices then g.vertices else g.vertices ++ [v] := by
  by_cases hv : v ∈ g.vertices
  · rw [if_pos hv, addVertex, if_pos (hasVertex_iff.2 hv)]
  · rw [if_neg hv, addVertex, if_neg (mt hasVertex_iff.1 hv)]
    show (g.forward.insert v .empty).keys = _
    rw [OrderedMap.keys_insert]
    exact if_neg hv

/-- An edge between vertices adds no vertex. -/
theorem vertices_addEdge (ha : a ∈ g.vertices) (hb : b ∈ g.vertices) :
    (g.addEdge a b w).vertices = g.vertices := by
  have hends : (g.addVertex a).addVertex b = g := by
    rw [addVertex, addVertex, if_pos (hasVertex_iff.2 ha), if_pos (hasVertex_iff.2 hb)]
  show (g.addEdge a b w).forward.keys = _
  rw [forward_addEdge, OrderedMap.keys_modify, hends]
  rfl

theorem vertices_removeEdge (g : Graph V E) (a b : V) :
    (g.removeEdge a b).vertices = g.vertices := by
  unfold removeEdge
  split
  · exact OrderedMap.keys_modify ..
  · rfl

theorem vertices_foldl_removeEdge (source target : V → V) (l : List V) (g : Graph V E) :
    (l.foldl (fun g e => g.removeEdge (source e) (target e)) g).vertices = g.vertices := by
  induction l generalizing g with
  | nil => rfl
  | cons e rest ih => exact (ih _).trans (vertices_removeEdge g _ _)

theorem vertices_removeVertex (g : Graph V E) (v : V) :
    (g.removeVertex v).vertices = g.vertices.filter fun x => x ≠ v := by
  unfold removeVertex
  split
  · have hbare : ((g.isolateForward v).isolateBackward v).vertices = g.vertices :=
      (vertices_foldl_removeEdge id (fun _ => v) _ _).trans
        (vertices_foldl_removeEdge (fun _ => v) id _ _)
    rw [← hbare]
    exact OrderedMap.keys_erase ..
  · rename_i hv
    refine (List.filter_eq_self.2 fun x hx => decide_eq_true ?_).symm
    rintro rfl
    exact hv (hasVertex_iff.2 hx)

/-! ### Predecessors in order -/

/-- A vertex that is no predecessor need not be taken out. -/
theorem filter_ingoing_of_not_mem (h : a ∉ g.ingoing y) :
    ((g.ingoing y).filter fun x => x ≠ a) = g.ingoing y := by
  refine List.filter_eq_self.2 fun x hx => decide_eq_true ?_
  rintro rfl
  exact h hx

/-- A new edge comes last among those that enter its target. -/
theorem Linked.ingoing_addEdge (h : g.Linked) (a b : V) (w : E) (y : V) :
    (g.addEdge a b w).ingoing y =
      if y = b ∧ a ∉ g.ingoing b then g.ingoing y ++ [a] else g.ingoing y := by
  -- The ends are added first, and that changes no ingoing edges.
  have hl : ((g.addVertex a).addVertex b).Linked := (h.addVertex a).addVertex b
  have hin : ∀ y, g.ingoing y = ((g.addVertex a).addVertex b).ingoing y := fun y => by
    rw [(h.addVertex a).ingoing_addVertex, h.ingoing_addVertex]
  have hb : ((g.addVertex a).addVertex b).hasVertex b = true := by simp
  rw [hin y, hin b]
  generalize hg' : (g.addVertex a).addVertex b = g' at hl hb
  rw [ingoing_eq, backward_addEdge, hg', OrderedMap.find?_modify]
  by_cases hy : b = y
  · subst hy
    -- The target has an entry, to which the source is added.
    have hsome : (g'.backward.find? b).isSome = true := by
      rw [OrderedMap.isSome_find?, OrderedMap.contains_iff, hl.keys]
      exact hasVertex_iff.1 hb
    obtain ⟨ins, hins⟩ := Option.isSome_iff_exists.1 hsome
    rw [ingoing_eq, hins, if_pos rfl]
    show (ins.insert a).toList = if b = b ∧ a ∉ ins.toList then ins.toList ++ [a] else ins.toList
    rw [OrderedSet.toList_insert]
    by_cases ha : a ∈ ins
    · rw [if_pos ha, if_neg fun hno => hno.2 ha]
    · rw [if_neg ha, if_pos ⟨rfl, ha⟩]
  · rw [if_neg hy, if_neg fun hno => hy hno.1.symm, ← ingoing_eq]

theorem Linked.ingoing_removeEdge (h : g.Linked) (a b y : V) : (g.removeEdge a b).ingoing y =
    if y = b then (g.ingoing y).filter fun x => x ≠ a else g.ingoing y := by
  unfold Graph.removeEdge
  split
  · -- The entry of the target loses the source, the others stay.
    rw [ingoing_eq, ingoing_eq]
    show (((g.backward.modify b _).find? y).map OrderedSet.toList).getD [] = _
    rw [OrderedMap.find?_modify]
    by_cases hy : b = y
    · subst hy
      rw [if_pos rfl, if_pos rfl]
      cases g.backward.find? b <;> rfl
    · rw [if_neg hy, if_neg (Ne.symm hy)]
  · rename_i hno
    split
    · rename_i hy
      subst hy
      exact (filter_ingoing_of_not_mem fun ha => hno ((h.ingoing a y).1 ha)).symm
    · rfl

/-- Without the edges that leave a vertex it is a predecessor of none. -/
theorem Linked.ingoing_isolateForward (h : g.Linked) (v y : V) :
    (g.isolateForward v).ingoing y = (g.ingoing y).filter fun x => x ≠ v := by
  -- Each edge goes from the predecessors of its own target.
  have hfold : ∀ (l : List V) (g : Graph V E), g.Linked →
      (l.foldl (fun g b => g.removeEdge v b) g).ingoing y =
        if y ∈ l then (g.ingoing y).filter fun x => x ≠ v else g.ingoing y := by
    intro l
    induction l with
    | nil => exact fun g _ => rfl
    | cons b rest ih =>
      intro g hg
      rw [List.foldl_cons, ih _ (hg.removeEdge v b), hg.ingoing_removeEdge]
      by_cases hb : y = b
      · simp [hb]
      · simp [hb]
  rw [isolateForward, hfold _ _ h]
  split
  · rfl
  · rename_i hy
    exact (filter_ingoing_of_not_mem fun hv => hy (mem_outgoing.2 ((h.ingoing v y).1 hv))).symm

theorem Linked.ingoing_isolateBackward (h : g.Linked) (hy : y ≠ v) :
    (g.isolateBackward v).ingoing y = g.ingoing y := by
  unfold isolateBackward
  generalize g.ingoing v = l
  induction l generalizing g with
  | nil => rfl
  | cons a rest ih =>
    rw [List.foldl_cons, ih (h.removeEdge a v), h.ingoing_removeEdge, if_neg hy]

/-- A vertex that is removed has no predecessors and is the predecessor of none. -/
theorem Linked.ingoing_removeVertex (h : g.Linked) (v y : V) : (g.removeVertex v).ingoing y =
    if y = v then [] else (g.ingoing y).filter fun x => x ≠ v := by
  by_cases hy : y = v
  · rw [if_pos hy, List.eq_nil_iff_forall_not_mem]
    exact fun x hx => (h.mem_ingoing_removeVertex.1 hx).2.2 hy
  · rw [if_neg hy]
    unfold Graph.removeVertex
    split
    · have hforward : (g.isolateForward v).Linked :=
        (h.foldl_removeEdge (fun _ => v) id (g.outgoing v)).1
      rw [← h.ingoing_isolateForward, ← hforward.ingoing_isolateBackward hy, ingoing_eq]
      show (((((g.isolateForward v).isolateBackward v).backward.erase v).find? y).map
        OrderedSet.toList).getD [] = _
      rw [OrderedMap.find?_erase, if_neg (Ne.symm hy), ← ingoing_eq]
    · rename_i hv
      exact (filter_ingoing_of_not_mem fun hx => hv (Linked.source ((h.ingoing v y).1 hx))).symm

end Graph

/-! ### Points and constraints -/

namespace ConstraintGraph

open PlanarSketch.Graph

variable {g : ConstraintGraph} {points : List PointName}
  {entries : List (ConstraintId × Constraint)} {id : ConstraintId} {c : Constraint} {v : PointName}

/-- The constraints of a list that are on a point. -/
def incident (entries : List (ConstraintId × Constraint)) (v : PointName) : List ConstraintId :=
  (entries.filter fun e => v ∈ e.2.names).map Prod.fst

/-- The graph has the given points, and on each of them the given constraints that name it, all in
order. -/
structure Joins (g : ConstraintGraph) (points : List PointName)
    (entries : List (ConstraintId × Constraint)) : Prop where
  linked : g.graph.Linked
  points_eq : g.points = points
  constraintsOn_eq : ∀ v, g.constraintsOn v = incident entries v

theorem joins_empty : empty.Joins [] [] := ⟨linked_empty, rfl, fun _ => rfl⟩

theorem mem_points : v ∈ g.points ↔ .point v ∈ g.graph.vertices := by
  unfold points
  rw [List.mem_filterMap]
  constructor
  · rintro ⟨x, hx, he⟩
    cases x with
    | point u => exact Option.some_inj.1 he ▸ hx
    | constraint i => cases he
  · exact fun hv => ⟨_, hv, rfl⟩

theorem mem_constraintsOn :
    id ∈ g.constraintsOn v ↔ .constraint id ∈ g.graph.ingoing (.point v) := by
  unfold constraintsOn
  rw [List.mem_filterMap]
  constructor
  · rintro ⟨x, hx, he⟩
    cases x with
    | point u => cases he
    | constraint i => exact Option.some_inj.1 he ▸ hx
  · exact fun hid => ⟨_, hid, rfl⟩

/-- Only what the constraints name and how they are ordered counts. -/
theorem Joins.congr {entries' : List (ConstraintId × Constraint)} (h : g.Joins points entries)
    (he : ∀ v, incident entries' v = incident entries v) : g.Joins points entries' :=
  ⟨h.linked, h.points_eq, fun v => (h.constraintsOn_eq v).trans (he v).symm⟩

/-- A new point has no constraints yet. -/
theorem Joins.addPoint (h : g.Joins points entries) (hv : v ∉ points) :
    (g.addPoint v).Joins (points ++ [v]) entries := by
  have hnew : ProblemVertex.point v ∉ g.graph.vertices := fun hmem =>
    hv (h.points_eq ▸ mem_points.2 hmem)
  refine ⟨h.linked.addVertex _, ?_, fun u => ?_⟩
  · rw [← h.points_eq]
    show List.filterMap _ (g.graph.addVertex (.point v)).vertices = _
    rw [vertices_addVertex, if_neg hnew, List.filterMap_append]
    rfl
  · rw [← h.constraintsOn_eq u]
    show List.filterMap _ ((g.graph.addVertex (.point v)).ingoing (.point u)) = _
    rw [h.linked.ingoing_addVertex]
    rfl

/-- A point that no constraint names goes alone. -/
theorem Joins.removePoint (h : g.Joins points entries) (hv : ∀ e ∈ entries, v ∉ e.2.names) :
    (g.removePoint v).Joins (points.filter fun u => u ≠ v) entries := by
  refine ⟨h.linked.removeVertex _, ?_, fun u => ?_⟩
  · rw [← h.points_eq]
    show List.filterMap _ (g.graph.removeVertex (.point v)).vertices = List.filter _
      (List.filterMap _ g.graph.vertices)
    rw [vertices_removeVertex, List.filterMap_filter, List.filter_filterMap]
    refine List.filterMap_congr fun x _ => ?_
    cases x with
    | point u => by_cases hu : u = v <;> simp [hu, Option.filter_some]
    | constraint i => simp
  · -- Around the point that goes there was no constraint; around another one nothing changes.
    show List.filterMap _ ((g.graph.removeVertex (.point v)).ingoing (.point u)) = _
    rw [h.linked.ingoing_removeVertex]
    split
    · rename_i hu
      obtain rfl := ProblemVertex.point.inj hu
      have hnone : (entries.filter fun e => u ∈ e.2.names) = [] :=
        List.filter_eq_nil_iff.2 fun e he => by simpa using hv e he
      rw [incident, hnone]
      rfl
    · rw [← h.constraintsOn_eq u]
      show _ = List.filterMap _ (g.graph.ingoing (.point u))
      rw [List.filterMap_filter]
      refine List.filterMap_congr fun x _ => ?_
      cases x with
      | point w => by_cases hw : w = v <;> simp [hw]
      | constraint i => simp

/-- Adding the edges of a new constraint to points that are there. -/
theorem Joins.foldl_addEdge (names : List PointName) {graph : Graph ProblemVertex Unit}
    (hl : graph.Linked) (hid : .constraint id ∈ graph.vertices)
    (hnames : ∀ u ∈ names, ProblemVertex.point u ∈ graph.vertices) :
    let added := names.foldl (fun g u => g.addEdge (.constraint id) (.point u) ()) graph
    added.Linked ∧ added.vertices = graph.vertices ∧ ∀ v, added.ingoing (.point v) =
      if v ∈ names ∧ .constraint id ∉ graph.ingoing (.point v) then
        graph.ingoing (.point v) ++ [.constraint id]
      else graph.ingoing (.point v) := by
  induction names generalizing graph with
  | nil => exact ⟨hl, rfl, fun v => (if_neg fun hno => List.not_mem_nil hno.1).symm⟩
  | cons u rest ih =>
    have hu := hnames u List.mem_cons_self
    -- Both ends are there, so an edge adds no vertex.
    have hvertices : (graph.addEdge (.constraint id) (.point u) ()).vertices = graph.vertices :=
      vertices_addEdge hid hu
    obtain ⟨hlinked, hsame, hin⟩ := ih (hl.addEdge (.constraint id) (.point u) ())
      (hvertices ▸ hid) fun x hx => hvertices ▸ hnames x (List.mem_cons_of_mem u hx)
    refine ⟨hlinked, hsame.trans hvertices, fun v => ?_⟩
    rw [List.foldl_cons, hin, hl.ingoing_addEdge]
    -- At `u` the constraint stands after the first edge, and a further edge to `u` adds nothing.
    by_cases hv : v = u
    · subst hv
      by_cases hold : ProblemVertex.constraint id ∈ graph.ingoing (.point v)
      · simp [hold]
      · simp [hold]
    · simp [hv]

/-- A new constraint comes last on each of its points. -/
theorem Joins.addConstraint (h : g.Joins points entries) (hid : id ∉ entries.map Prod.fst)
    (hc : ∀ v ∈ c.names, v ∈ points) :
    (g.addConstraint id c.names).Joins points (entries ++ [(id, c)]) := by
  obtain ⟨hl, hsame, hin⟩ := Joins.foldl_addEdge c.names
    (h.linked.addVertex (.constraint id)) (hasVertex_iff.1 (hasVertex_addVertex.2 (.inl rfl)))
    fun u hu => by
      have hold := hasVertex_iff.2 (mem_points.1 (h.points_eq ▸ hc u hu))
      exact hasVertex_iff.1 (hasVertex_addVertex.2 (.inr hold))
  refine ⟨hl, ?_, fun v => ?_⟩
  · rw [← h.points_eq]
    show List.filterMap _ (List.foldl _ (g.graph.addVertex (.constraint id)) c.names).vertices = _
    rw [hsame, vertices_addVertex]
    split
    · rfl
    · rw [List.filterMap_append]
      exact List.append_nil _
  · -- The handle is new, so nothing with it is on a point yet.
    have hnew : ProblemVertex.constraint id ∉ g.graph.ingoing (.point v) := fun hmem => by
      have hon := mem_constraintsOn.2 hmem
      rw [h.constraintsOn_eq] at hon
      obtain ⟨e, he, hfst⟩ := List.mem_map.1 hon
      exact hid (List.mem_map.2 ⟨e, (List.mem_filter.1 he).1, hfst⟩)
    have hold : incident (entries ++ [(id, c)]) v =
        incident entries v ++ if v ∈ c.names then [id] else [] := by
      rw [incident, incident, List.filter_append, List.map_append]
      by_cases hv : v ∈ c.names <;> simp [hv]
    rw [hold, ← h.constraintsOn_eq]
    show List.filterMap _ (Graph.ingoing (List.foldl _ (g.graph.addVertex (.constraint id))
      c.names) (.point v)) = _
    rw [hin, h.linked.ingoing_addVertex]
    by_cases hv : v ∈ c.names
    · rw [if_pos ⟨hv, hnew⟩, if_pos hv, List.filterMap_append]
      rfl
    · rw [if_neg fun hno => hv hno.1, if_neg hv, List.append_nil]
      rfl

/-- A constraint that is removed leaves the others in order. -/
theorem Joins.removeConstraint (h : g.Joins points entries) (id : ConstraintId) :
    (g.removeConstraint id).Joins points (entries.filter fun e => e.1 ≠ id) := by
  refine ⟨h.linked.removeVertex _, ?_, fun v => ?_⟩
  · -- A constraint is no point.
    rw [← h.points_eq]
    show List.filterMap _ (g.graph.removeVertex (.constraint id)).vertices = List.filterMap _ _
    rw [vertices_removeVertex, List.filterMap_filter]
    refine List.filterMap_congr fun x _ => ?_
    cases x with
    | point u => simp
    | constraint i => by_cases hi : i = id <;> simp [hi]
  · -- Around every point the constraint is left out, and the order of the others stays.
    have hfilter : incident (entries.filter fun e => e.1 ≠ id) v =
        (incident entries v).filter fun i => i ≠ id := by
      rw [incident, incident, List.filter_map, List.filter_filter, List.filter_filter]
      congr 1
      exact List.filter_congr fun e _ => Bool.and_comm ..
    rw [hfilter, ← h.constraintsOn_eq]
    show List.filterMap _ ((g.graph.removeVertex (.constraint id)).ingoing (.point v)) =
      List.filter _ (List.filterMap _ (g.graph.ingoing (.point v)))
    rw [h.linked.ingoing_removeVertex, if_neg nofun, List.filterMap_filter, List.filter_filterMap]
    refine List.filterMap_congr fun x _ => ?_
    cases x with
    | point u => simp
    | constraint i => by_cases hi : i = id <;> simp [hi, Option.filter_some]

end ConstraintGraph

end PlanarSketch
