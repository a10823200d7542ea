/-
Global minimum cuts of the undirected view of a graph.

Each phase sweeps through the remaining groups of vertices, always taking next
the group that is tied most strongly to those already taken.  The group taken
last, cut off from the rest, is a candidate; it is then joined with the group
taken before it.  The best candidate of all phases is a minimum cut.

The computation is written for any type of weights with an addition, a zero
and a decidable order, so that it can be read over exact numbers as well as
over floating-point ones.

Main definitions:
* `sweep`: the order in which a phase takes the groups;
* `cutPhases`: the phases;
* `Graph.minCut?`: the weight and one side of the best cut.
-/
import PlanarSketch.Graph.Basic

namespace PlanarSketch

variable {W : Type} {n : Nat}

/-- A square table of weights. -/
abbrev WeightTable (W : Type) (n : Nat) := Vector (Vector W n) n

/-- The weight between two indices. -/
def WeightTable.between (w : WeightTable W n) (i j : Fin n) : W := (w.get i).get j

/-- A table from a function of two indices. -/
def WeightTable.ofFn (f : Fin n → Fin n → W) : WeightTable W n :=
  Vector.ofFn fun i => Vector.ofFn fun j => f i j

/-- A group of joined vertices: the vertex that stands for it and its members. -/
structure CutGroup (n : Nat) where
  head : Fin n
  members : List (Fin n)

/-- A vertex that a sweep has not taken yet, with its tie to those taken. -/
structure Waiting (W : Type) (n : Nat) where
  vertex : Fin n
  tie : W

section Weights

variable [Add W] [Zero W] [LT W] [DecidableLT W]

/-- Adds a weight in both directions, unless the ends coincide. -/
def WeightTable.addBoth (w : WeightTable W n) (i j : Fin n) (x : W) : WeightTable W n :=
  if i = j then w
  else
    .ofFn fun k l =>
      if (k = i ∧ l = j) ∨ (k = j ∧ l = i) then w.between k l + x else w.between k l

/-- Joins `last` into `prev`: the ties of both add up. -/
def WeightTable.contract (w : WeightTable W n) (prev last : Fin n) : WeightTable W n :=
  .ofFn fun k l =>
    if k = prev then if l = prev then 0 else w.between prev l + w.between last l
    else if l = prev then w.between prev k + w.between last k
    else w.between k l

/-- The first of the vertices with the greatest tie; ties that cannot be compared count as equal. -/
def strongest (first : Waiting W n) (rest : List (Waiting W n)) : Waiting W n :=
  rest.foldl (fun best x => if best.tie < x.tie then x else best) first

/-- Takes all waiting vertices, always the one with the strongest tie to those taken before.  Each
comes with its tie at the time it is taken. -/
def sweep (w : WeightTable W n) : Nat → List (Waiting W n) → List (Waiting W n)
  | 0, _ => []
  | _ + 1, [] => []
  | steps + 1, first :: rest =>
    let taken := strongest first rest
    -- What is left feels the pull of the vertex just taken.
    let left := (first :: rest).filter fun x => x.vertex ≠ taken.vertex
    taken :: sweep w steps
      (left.map fun x => { x with tie := x.tie + w.between taken.vertex x.vertex })

/-- A cut: its weight and one of its sides. -/
structure Cut (W : Type) (n : Nat) where
  weight : W
  side : List (Fin n)

/-- The better of two cuts; the earlier one unless the later is strictly lighter. -/
def Cut.lighter (best : Option (Cut W n)) (cut : Cut W n) : Option (Cut W n) :=
  match best with
  | none => some cut
  | some b => if cut.weight < b.weight then some cut else some b

/-- The groups after the members of `last` have joined `prev`. -/
def joinGroups (groups : List (CutGroup n)) (prev last : CutGroup n) : List (CutGroup n) :=
  (groups.filter fun g => g.head ≠ last.head).map fun g =>
    if g.head = prev.head then { g with members := g.members ++ last.members } else g

/-- Runs one phase after the other until a single group is left. -/
def cutPhases : Nat → WeightTable W n → List (CutGroup n) → Option (Cut W n) → Option (Cut W n)
  | 0, _, _, best => best
  | steps + 1, w, groups, best =>
    match (sweep w groups.length (groups.map fun g => ⟨g.head, 0⟩)).reverse with
    -- The sweep is read backwards: the last vertex taken comes first.
    | last :: prev :: _ =>
      match groups.find? fun g => g.head = last.vertex,
          groups.find? fun g => g.head = prev.vertex with
      | some lastGroup, some prevGroup =>
        cutPhases steps (w.contract prev.vertex last.vertex) (joinGroups groups prevGroup lastGroup)
          (Cut.lighter best ⟨last.tie, lastGroup.members⟩)
      | _, _ => best
    | _ => best

namespace Graph

variable {V : Type} [DecidableEq V]

/-- The weights between the vertices by their age, both directions added up and loops left out. -/
def weightTable (g : Graph V W) : WeightTable W g.vertices.length :=
  g.edges.foldl
    (fun w e =>
      match g.vertices.finIdxOf? e.1, g.vertices.finIdxOf? e.2.1 with
      | some i, some j => w.addBoth i j e.2.2
      | _, _ => w)
    (.ofFn fun _ _ => 0)

/-- The lightest way to split the vertices in two, as its weight and the vertices of one side.
There is none with fewer than two vertices. -/
def minCut? (g : Graph V W) : Option (W × List V) :=
  let groups := (List.finRange g.vertices.length).map fun i => ⟨i, [i]⟩
  (cutPhases g.vertices.length g.weightTable groups none).map fun cut =>
    (cut.weight, cut.side.map fun i => g.vertices.get i)

end Graph

end Weights

end PlanarSketch
