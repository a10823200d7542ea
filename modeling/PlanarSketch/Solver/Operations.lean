/-
The operations of a solver.

Main definitions:
* `Solver.add`, `Solver.remove`, `Solver.setRoot`: changes of the
  decomposition;
* `Solver.assign`: the candidates of a cluster;
* `Solver.setPrototype`, `Solver.clearPrototype`: the sketch as drawn;
* `Solver.addSelection`, `Solver.removeSelection`: constraints on solutions.
-/
import PlanarSketch.Solver.Basic

namespace PlanarSketch.Solver

/-- Adds a cluster, carries out every merge that it allows and computes what is affected. -/
def add (c : Cluster) : SolverM ClusterId := do
  match (← get).decomposition.add c with
  | .error e => throw (.decomposition e)
  | .ok (id, d) =>
    restructure d
    return id

/-- Removes an added cluster and everything computed from it. -/
def remove (id : ClusterId) : SolverM Unit := do
  match (← get).decomposition.remove id with
  | .error e => throw (.decomposition e)
  | .ok d => restructure d

/-- Makes a rigid the root. -/
def setRoot (id : ClusterId) : SolverM Unit := do
  match (← get).decomposition.setRoot id with
  | .error e => throw (.decomposition e)
  | .ok d => restructure d

/-- Gives a cluster its candidates. -/
def assign (id : ClusterId) (candidates : Candidates) : SolverM Unit := do
  let cell ← cellOf id
  editFlow fun flow => flow.set cell candidates
  propagate

/-- Passes the sketch as drawn to the selectors. -/
def refreshPrototype : SolverM Unit := do
  let s ← get
  editFlow fun flow => flow.set s.prototypeCell [.ofPoints s.prototypes]
  propagate

/-- Places a point of the sketch as drawn. -/
def setPrototype (name : PointName) (p : Vec) : SolverM Unit := do
  modify fun s => { s with prototypes := s.prototypes.insert name p }
  refreshPrototype

/-- Takes a point out of the sketch as drawn. -/
def clearPrototype (name : PointName) : SolverM Unit := do
  if (← get).prototypes.contains name then
    modify fun s => { s with prototypes := s.prototypes.erase name }
    refreshPrototype

/-- Adds a constraint that every solution has to fulfil; says whether it is new. -/
def addSelection (q : SelectionConstraint) : SolverM Bool := do
  if (← get).selection.contains q then return false
  else
    modify fun s => { s with selection := s.selection.insert q }
    rebuildSelectors
    return true

/-- Takes a constraint out; says whether it was there. -/
def removeSelection (q : SelectionConstraint) : SolverM Bool := do
  if (← get).selection.contains q then
    modify fun s => { s with selection := s.selection.erase q }
    rebuildSelectors
    return true
  else return false

end PlanarSketch.Solver
