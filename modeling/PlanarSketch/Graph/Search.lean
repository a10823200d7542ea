/-
Breadth-first searches.

A search is given by a successor function.  It accepts vertices in the order
in which they first come to the head of the queue, each once, so as many steps
as there are vertices suffice.

Main definitions:
* `explore`: everything that can be reached from a queue of vertices;
* `Graph.reachable`, `Graph.components`: closures;
* `Graph.path?`: a shortest path.
-/
import PlanarSketch.Graph.Basic

namespace PlanarSketch

variable {V E : Type} [DecidableEq V]

/-- Accepts vertices from a queue until it is empty or the steps run out.  An accepted vertex adds
its successors at the end of the queue. -/
def explore (next : V → List V) : Nat → List V → List V → List V
  | 0, seen, _ => seen
  | steps + 1, seen, queue =>
    match queue.dropWhile (· ∈ seen) with
    | [] => seen
    | v :: rest => explore next steps (seen ++ [v]) (rest ++ next v)

/-- Extends walks breadth-first until one ends at the target.  Walks are kept from their end to
their start, and `seen` holds the ends of all walks so far. -/
def walk? (next : V → List V) (target : V) : Nat → List V → List (List V) → Option (List V)
  | 0, _, _ => none
  | _ + 1, _, [] => none
  | steps + 1, seen, [] :: queue => walk? next target steps seen queue
  | steps + 1, seen, (v :: back) :: queue =>
    if v = target then some (v :: back).reverse
    else
      -- A vertex is marked when it is queued, so no two walks end at the same vertex.
      let fresh := (next v).filter (· ∉ seen)
      walk? next target steps (seen ++ fresh) (queue ++ fresh.map fun w => w :: v :: back)

namespace Graph

/-- The vertices that can be reached from `v` along at least one edge, nearest first. -/
def reachable (g : Graph V E) (v : V) : List V := explore g.outgoing g.vertexCount [] (g.outgoing v)

/-- A path with the fewest edges, both ends included. -/
def path? (g : Graph V E) (a b : V) : Option (List V) :=
  if g.hasVertex a && g.hasVertex b then walk? g.outgoing b g.vertexCount [a] [[a]] else none

/-- The vertices that are joined with `v` by edges of either direction. -/
def component (g : Graph V E) (v : V) : List V := explore g.adjacent g.vertexCount [] [v]

/-- Adds the component of `v` unless an earlier one holds it. -/
def addComponent (g : Graph V E) (found : List (List V)) (v : V) : List (List V) :=
  if found.any fun c => v ∈ c then found else found ++ [g.component v]

/-- The weakly connected components, by the age of their oldest vertex. -/
def components (g : Graph V E) : List (List V) := g.vertices.foldl g.addComponent []

end Graph

end PlanarSketch
