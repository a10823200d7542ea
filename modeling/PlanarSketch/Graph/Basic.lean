/-
Directed graphs with weighted edges and a feed of their changes.

Successors and predecessors are both kept, in order of arrival, so every
enumeration is determined by the history of the graph.

Main definitions:
* `Graph.addVertex`, `Graph.removeVertex`, `Graph.addEdge`,
  `Graph.removeEdge`: the changes, each published as `GraphEvent`s;
* `Graph.outgoing`, `Graph.ingoing`, `Graph.adjacent`, `Graph.edges`: the
  enumerations.
-/
import PlanarSketch.Collection.OrderedSet
import PlanarSketch.Feed

namespace PlanarSketch

/-- A change of the vertices or edges of a graph. -/
inductive GraphEvent (V : Type) where
  | addVertex (v : V)
  | removeVertex (v : V)
  | addEdge (a b : V)
  | removeEdge (a b : V)
deriving DecidableEq

/-- A directed graph with weights of type `E` on its edges. -/
structure Graph (V E : Type) where
  /-- The successors of each vertex with the weights of the edges to them. -/
  forward : OrderedMap V (OrderedMap V E)
  /-- The predecessors of each vertex. -/
  backward : OrderedMap V (OrderedSet V)
  feed : Feed (GraphEvent V)

namespace Graph

variable {V E : Type}

/-- The graph without vertices. -/
def empty : Graph V E := ⟨.empty, .empty, .empty⟩

instance : Inhabited (Graph V E) := ⟨empty⟩

/-- The vertices, oldest first. -/
def vertices (g : Graph V E) : List V := g.forward.keys

/-- The number of vertices. -/
def vertexCount (g : Graph V E) : Nat := g.forward.size

/-- The edges with their weights, by the age of their source and then of the edge. -/
def edges (g : Graph V E) : List (V × V × E) :=
  g.forward.entries.flatMap fun e => e.2.entries.map fun d => (e.1, d.1, d.2)

/-- Publishes an event. -/
def publish (g : Graph V E) (event : GraphEvent V) : Graph V E :=
  { g with feed := g.feed.publish event }

variable [DecidableEq V]

/-! ### Queries -/

/-- Whether `v` is a vertex. -/
def hasVertex (g : Graph V E) (v : V) : Bool := g.forward.contains v

/-- The weight of the edge from `a` to `b`. -/
def weight? (g : Graph V E) (a b : V) : Option E := do
  let out ← g.forward.find? a
  out.find? b

/-- Whether there is an edge from `a` to `b`. -/
def hasEdge (g : Graph V E) (a b : V) : Bool := (g.weight? a b).isSome

/-- The successors of a vertex, oldest edge first. -/
def outgoing (g : Graph V E) (v : V) : List V :=
  match g.forward.find? v with
  | some out => out.keys
  | none => []

/-- The predecessors of a vertex, oldest edge first. -/
def ingoing (g : Graph V E) (v : V) : List V :=
  match g.backward.find? v with
  | some ins => ins.toList
  | none => []

/-- The successors of a vertex and then its other predecessors. -/
def adjacent (g : Graph V E) (v : V) : List V :=
  (OrderedSet.ofList (g.outgoing v ++ g.ingoing v)).toList

/-- The edges that leave a vertex. -/
def outgoingEdges (g : Graph V E) (v : V) : List (V × V) := (g.outgoing v).map fun b => (v, b)

/-- The edges that enter a vertex. -/
def ingoingEdges (g : Graph V E) (v : V) : List (V × V) := (g.ingoing v).map fun a => (a, v)

/-! ### Changes -/

/-- Adds a vertex that is absent. -/
def addVertex (g : Graph V E) (v : V) : Graph V E :=
  if g.hasVertex v then g
  else
    { g with
      forward := g.forward.insert v .empty
      backward := g.backward.insert v .empty }
    |>.publish (.addVertex v)

/-- Adds an edge together with its missing ends, or changes the weight of an edge. -/
def addEdge (g : Graph V E) (a b : V) (w : E) : Graph V E :=
  let g := (g.addVertex a).addVertex b
  let linked : Graph V E :=
    { g with
      forward := g.forward.modify a fun out => out.insert b w
      backward := g.backward.modify b fun ins => ins.insert a }
  if g.hasEdge a b then linked else linked.publish (.addEdge a b)

/-- Removes an edge that is present. -/
def removeEdge (g : Graph V E) (a b : V) : Graph V E :=
  if g.hasEdge a b then
    { g with
      forward := g.forward.modify a fun out => out.erase b
      backward := g.backward.modify b fun ins => ins.erase a }
    |>.publish (.removeEdge a b)
  else g

/-- Removes the edges that leave a vertex. -/
def isolateForward (g : Graph V E) (v : V) : Graph V E :=
  (g.outgoing v).foldl (fun g b => g.removeEdge v b) g

/-- Removes the edges that enter a vertex. -/
def isolateBackward (g : Graph V E) (v : V) : Graph V E :=
  (g.ingoing v).foldl (fun g a => g.removeEdge a v) g

/-- Removes a vertex that is present, after its edges. -/
def removeVertex (g : Graph V E) (v : V) : Graph V E :=
  if g.hasVertex v then
    let bare := (g.isolateForward v).isolateBackward v
    { bare with
      forward := bare.forward.erase v
      backward := bare.backward.erase v }
    |>.publish (.removeVertex v)
  else g

/-! ### Subscribers -/

/-- Adds a subscriber to the changes. -/
def subscribe (g : Graph V E) : ListenerId (GraphEvent V) × Graph V E :=
  let (l, feed) := g.feed.subscribe
  (l, { g with feed := feed })

/-- Drops a subscriber. -/
def unsubscribe (g : Graph V E) (l : ListenerId (GraphEvent V)) : Graph V E :=
  { g with feed := g.feed.unsubscribe l }

/-- Takes the events queued for a subscriber. -/
def drain (g : Graph V E) (l : ListenerId (GraphEvent V)) : List (GraphEvent V) × Graph V E :=
  let (events, feed) := g.feed.drain l
  (events, { g with feed := feed })

end Graph

end PlanarSketch
