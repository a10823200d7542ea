/-
All queries of a graph tell of the same edges.

Edges are enumerated from the successors, each of them once.  Predecessors and
neighbours are read off tables of their own, which every call keeps in step,
so after any calls they are what the enumeration says.

* `mem_edges_iff`, `nodup_edges`: what is enumerated;
* `Linked.ingoing_perm`, `Linked.mem_adjacent_iff`: predecessors and neighbours
  read off the enumeration;
* `Operation`, `run`: calls of all kinds, and the graphs that they lead to;
* `edges_run`: the tables agree after every run.
-/
import Mathlib.Data.List.Nodup
import PlanarSketch.Proofs.Graphs

namespace PlanarSketch.Graph

variable {V E : Type} [DecidableEq V] {g : Graph V E} {a b v x : V} {w : E}

/-! ### The enumeration -/

theorem mem_edges_iff : (a, b, w) ∈ g.edges ↔ g.weight? a b = some w := by
  rw [weight?_eq, Option.bind_eq_some_iff]
  simp only [edges, List.mem_flatMap, List.mem_map, Prod.mk.injEq]
  constructor
  · rintro ⟨e, he, d, hd, rfl, rfl, rfl⟩
    exact ⟨e.2, OrderedMap.find?_eq_some.2 he, OrderedMap.find?_eq_some.2 hd⟩
  · rintro ⟨out, hout, hw⟩
    exact ⟨(a, out), OrderedMap.find?_eq_some.1 hout, (b, w), OrderedMap.find?_eq_some.1 hw,
      rfl, rfl, rfl⟩

theorem hasEdge_iff_mem_edges : g.hasEdge a b = true ↔ ∃ w, (a, b, w) ∈ g.edges := by
  rw [hasEdge_iff]
  exact exists_congr fun w => mem_edges_iff.symm

omit [DecidableEq V] in
/-- No two edges of the enumeration have the same ends. -/
theorem nodup_edges (g : Graph V E) : (g.edges.map fun e => (e.1, e.2.1)).Nodup := by
  have hends : (g.edges.map fun e => (e.1, e.2.1)) =
      g.forward.entries.flatMap fun e => e.2.keys.map fun b => (e.1, b) := by
    simp [edges, OrderedMap.keys, List.map_flatMap, Function.comp_def]
  rw [hends, List.nodup_flatMap]
  constructor
  · intro e _
    exact e.2.nodup_keys.map fun b b' h => (Prod.mk.inj h).2
  · have hsources : g.forward.entries.Pairwise fun e e' => e.1 ≠ e'.1 :=
      List.pairwise_map.1 g.forward.nodup_keys
    refine hsources.imp fun {e e'} hne => ?_
    intro p hp hp'
    obtain ⟨b, -, rfl⟩ := List.mem_map.1 hp
    obtain ⟨b', -, heq⟩ := List.mem_map.1 hp'
    exact hne (Prod.mk.inj heq).1.symm

/-- Of the edges with one target no two have the same source. -/
theorem nodup_sources (g : Graph V E) (v : V) :
    ((g.edges.filter fun e => e.2.1 = v).map fun e => e.1).Nodup := by
  have hends := List.pairwise_map.1 g.nodup_edges
  have hfilter : (g.edges.filter fun e => e.2.1 = v).Pairwise
      fun e e' => (e.1, e.2.1) ≠ (e'.1, e'.2.1) := hends.filter _
  rw [List.Nodup, List.pairwise_map]
  refine hfilter.imp_of_mem fun {e e'} he he' hne hsource => ?_
  have htarget : e.2.1 = v := by simpa using (List.mem_filter.1 he).2
  have htarget' : e'.2.1 = v := by simpa using (List.mem_filter.1 he').2
  exact hne (by rw [hsource, htarget, htarget'])

/-! ### Predecessors and neighbours -/

theorem nodup_ingoing (g : Graph V E) (v : V) : (g.ingoing v).Nodup := by
  rw [ingoing_eq]
  cases g.backward.find? v with
  | none => exact List.nodup_nil
  | some ins => exact ins.nodup

/-- The predecessors of a vertex are the sources of the edges to it. -/
theorem Linked.ingoing_perm (h : g.Linked) (v : V) :
    (g.ingoing v).Perm ((g.edges.filter fun e => e.2.1 = v).map fun e => e.1) := by
  rw [List.perm_ext_iff_of_nodup (g.nodup_ingoing v) (g.nodup_sources v)]
  intro a
  rw [h.ingoing, hasEdge_iff_mem_edges]
  simp only [List.mem_map, List.mem_filter, decide_eq_true_eq]
  constructor
  · rintro ⟨w, hw⟩
    exact ⟨(a, v, w), ⟨hw, rfl⟩, rfl⟩
  · rintro ⟨e, ⟨he, rfl⟩, rfl⟩
    exact ⟨e.2.2, he⟩

/-- The edges that enter a vertex are those of the enumeration that do. -/
theorem Linked.ingoingEdges_perm (h : g.Linked) (v : V) :
    (g.ingoingEdges v).Perm ((g.edges.filter fun e => e.2.1 = v).map fun e => (e.1, e.2.1)) := by
  have hmap : ((g.edges.filter fun e => e.2.1 = v).map fun e => (e.1, e.2.1)) =
      ((g.edges.filter fun e => e.2.1 = v).map fun e => e.1).map fun a => (a, v) := by
    rw [List.map_map]
    refine List.map_congr_left fun e he => ?_
    have htarget : e.2.1 = v := by simpa using (List.mem_filter.1 he).2
    simp [htarget]
  rw [hmap]
  exact (h.ingoing_perm v).map _

theorem nodup_adjacent (g : Graph V E) (v : V) : (g.adjacent v).Nodup := OrderedSet.nodup _

/-- The neighbours of a vertex are the other ends of the edges at it. -/
theorem Linked.mem_adjacent_iff (h : g.Linked) :
    x ∈ g.adjacent v ↔ ∃ e ∈ g.edges, e.1 = v ∧ e.2.1 = x ∨ e.1 = x ∧ e.2.1 = v := by
  rw [adjacent, OrderedSet.mem_toList, OrderedSet.mem_ofList, List.mem_append, mem_outgoing,
    h.ingoing, hasEdge_iff_mem_edges, hasEdge_iff_mem_edges]
  constructor
  · rintro (⟨w, hw⟩ | ⟨w, hw⟩)
    · exact ⟨_, hw, .inl ⟨rfl, rfl⟩⟩
    · exact ⟨_, hw, .inr ⟨rfl, rfl⟩⟩
  · rintro ⟨e, he, ⟨rfl, rfl⟩ | ⟨rfl, rfl⟩⟩
    · exact .inl ⟨e.2.2, he⟩
    · exact .inr ⟨e.2.2, he⟩

/-! ### Runs -/

/-- The calls of a graph and of its subscribers. -/
inductive Operation (V E : Type) where
  | addVertex (v : V)
  | removeVertex (v : V)
  | addEdge (a b : V) (w : E)
  | removeEdge (a b : V)
  | subscribe
  | unsubscribe (l : ListenerId (GraphEvent V))
  | drain (l : ListenerId (GraphEvent V))
deriving DecidableEq

/-- The graph after a call. -/
def perform (g : Graph V E) : Operation V E → Graph V E
  | .addVertex v => g.addVertex v
  | .removeVertex v => g.removeVertex v
  | .addEdge a b w => g.addEdge a b w
  | .removeEdge a b => g.removeEdge a b
  | .subscribe => g.subscribe.2
  | .unsubscribe l => g.unsubscribe l
  | .drain l => (g.drain l).2

/-- The graph after a run of calls. -/
def run (ops : List (Operation V E)) : Graph V E := ops.foldl perform empty

/-- Subscribers do not touch the tables. -/
theorem Linked.withFeed (h : g.Linked) (feed : Feed (GraphEvent V)) :
    ({ g with feed := feed } : Graph V E).Linked :=
  ⟨h.keys, h.ingoing, h.target⟩

theorem Linked.perform (h : g.Linked) (op : Operation V E) : (g.perform op).Linked := by
  cases op with
  | addVertex v => exact h.addVertex v
  | removeVertex v => exact h.removeVertex v
  | addEdge a b w => exact h.addEdge a b w
  | removeEdge a b => exact h.removeEdge a b
  | subscribe => exact h.withFeed _
  | unsubscribe l => exact h.withFeed _
  | drain l => exact h.withFeed _

theorem Linked.foldl_perform (h : g.Linked) (ops : List (Operation V E)) :
    (ops.foldl Graph.perform g).Linked := by
  induction ops generalizing g with
  | nil => exact h
  | cons op rest ih => exact ih (h.perform op)

theorem linked_run (ops : List (Operation V E)) : (run ops).Linked := linked_empty.foldl_perform ops

/-- Of an edge both tables tell, or neither. -/
theorem Linked.exists_forward_iff (h : g.Linked) :
    (∃ out, g.forward.find? a = some out ∧ b ∈ out.keys) ↔
      ∃ ins, g.backward.find? b = some ins ∧ a ∈ ins := by
  have hforward : (∃ out, g.forward.find? a = some out ∧ b ∈ out.keys) ↔ b ∈ g.outgoing a := by
    rw [outgoing]
    cases g.forward.find? a <;> simp
  have hbackward : (∃ ins, g.backward.find? b = some ins ∧ a ∈ ins) ↔ a ∈ g.ingoing b := by
    rw [Graph.ingoing]
    cases g.backward.find? b <;> simp
  rw [hforward, hbackward, mem_outgoing, h.ingoing]

/-- After every run both tables have the same keys in the same order and tell of the same edges,
whose ends are vertices.  The predecessors of a vertex, the edges that enter it and its neighbours
are what the enumeration of the edges says, each of them once. -/
theorem edges_run (ops : List (Operation V E)) :
    let g := run ops
    g.backward.keys = g.forward.keys ∧
    (∀ a b, (∃ out, g.forward.find? a = some out ∧ b ∈ out.keys) ↔
      ∃ ins, g.backward.find? b = some ins ∧ a ∈ ins) ∧
    (∀ a b w, (a, b, w) ∈ g.edges → a ∈ g.vertices ∧ b ∈ g.vertices) ∧
    (∀ v, (g.ingoing v).Perm ((g.edges.filter fun e => e.2.1 = v).map fun e => e.1)) ∧
    (∀ v, (g.ingoingEdges v).Perm
      ((g.edges.filter fun e => e.2.1 = v).map fun e => (e.1, e.2.1))) ∧
    ∀ v, (g.adjacent v).Nodup ∧ ∀ x, x ∈ g.adjacent v ↔
      ∃ e ∈ g.edges, e.1 = v ∧ e.2.1 = x ∨ e.1 = x ∧ e.2.1 = v := by
  intro g
  have h : g.Linked := linked_run ops
  refine ⟨h.keys, fun a b => h.exists_forward_iff, ?_, h.ingoing_perm, h.ingoingEdges_perm,
    fun v => ⟨g.nodup_adjacent v, fun x => h.mem_adjacent_iff⟩⟩
  intro a b w hw
  have hedge := hasEdge_iff_mem_edges.2 ⟨w, hw⟩
  have hsource : g.hasVertex a = true := Linked.source hedge
  have htarget : g.hasVertex b = true := h.target a b hedge
  exact ⟨hasVertex_iff.1 hsource, hasVertex_iff.1 htarget⟩

end PlanarSketch.Graph
