/-
Solvers: a decomposition with candidate configurations for every cluster.

Beside the decomposition a solver keeps a dataflow.  Every cluster has a cell
for its candidates; every merge has a method that computes candidates from
those of its inputs, and a selector that chooses among them.  Changes of the
decomposition are replayed on the dataflow edit by edit, and values never
influence the decomposition.

Main definitions:
* `Solver`, `SolverM`: the state, and a change of it that may fail;
* `Solver.replay`: one edit of the decomposition on the dataflow;
* `Solver.rebuildSelectors`: every selector anew.
-/
import PlanarSketch.Collection.Roster
import PlanarSketch.Dataflow.Propagation
import PlanarSketch.Decomposition.Removal

namespace PlanarSketch

/-- Why a change of a solver fails. -/
inductive SolverError where
  | decomposition (e : DecompositionError)
  | dataflow (e : DataflowError)
deriving DecidableEq

/-- The wording of each error. -/
def SolverError.message : SolverError → String
  | .decomposition e => e.message
  | .dataflow e => e.message

/-- The candidates for one cluster. -/
abbrev Candidates := List Configuration

/-- Where a merge is computed. -/
structure MergeWiring where
  /-- The cell between the merge and the selection. -/
  candidates : CellId Candidates
  mergeMethod : MethodId Candidates
  selectMethod : MethodId Candidates

/-- A decomposition with candidates for every cluster. -/
structure Solver where
  config : SolverConfig
  decomposition : Decomposition
  flow : Dataflow Candidates
  /-- The cell with the sketch as drawn. -/
  prototypeCell : CellId Candidates
  /-- The cell of each cluster. -/
  cells : OrderedMap ClusterId (CellId Candidates)
  /-- The methods of each merge. -/
  wirings : OrderedMap MergeId MergeWiring
  /-- The merges on seats, in the order in which selectors are rebuilt. -/
  roster : Roster MergeId
  /-- The positions of the sketch as drawn. -/
  prototypes : OrderedMap PointName Vec
  /-- The constraints that every solution has to fulfil. -/
  selection : OrderedSet SelectionConstraint

/-- A change of a solver that may fail.  What was changed before a failure stays changed. -/
abbrev SolverM := ExceptT SolverError (StateM Solver)

namespace Solver

/-- The solver without clusters. -/
def withConfig (config : SolverConfig) : Solver :=
  let (cell, flow) := Dataflow.empty.addCell "prototype" true (some [.ofPoints .empty])
  { config := config
    decomposition := .empty
    flow := flow
    prototypeCell := cell
    cells := .empty
    wirings := .empty
    roster := .empty
    prototypes := .empty
    selection := .empty }

/-- The candidates of a cluster, if they have been computed. -/
def candidates? (s : Solver) (id : ClusterId) : Option Candidates :=
  (s.cells.find? id).bind s.flow.value?

/-! ### The dataflow -/

/-- Runs a change of the dataflow that may be refused. -/
def changeFlow {α : Type}
    (change : Dataflow Candidates → Except DataflowError (α × Dataflow Candidates)) :
    SolverM α := do
  let s ← get
  match change s.flow with
  | .error e => throw (.dataflow e)
  | .ok (a, flow) =>
    set { s with flow := flow }
    return a

/-- A change of the dataflow without a result. -/
def editFlow (change : Dataflow Candidates → Except DataflowError (Dataflow Candidates)) :
    SolverM Unit :=
  changeFlow fun flow => (change flow).map fun flow => ((), flow)

/-- Brings the dataflow up to date. -/
def propagate : SolverM Unit := do
  let s ← get
  let (result, flow) := s.flow.propagate
  set { s with flow := flow }
  match result with
  | .ok () => return ()
  | .error e => throw (.dataflow e)

/-- The cell of a cluster in use. -/
def cellOf (id : ClusterId) : SolverM (CellId Candidates) := do
  match (← get).cells.find? id with
  | some cell => return cell
  | none => throw (.decomposition .unknownCluster)

/-- The text of a cluster. -/
def clusterText (s : Solver) (id : ClusterId) : String :=
  ((s.decomposition.cluster? id).map Cluster.text).getD ""

/-! ### Selectors -/

/-- A cluster has the three points of a constraint. -/
def decides (s : Solver) (q : SelectionConstraint) (id : ClusterId) : Bool :=
  (s.decomposition.cluster? id).any fun c => c.containsAll q.names

/-- The constraints that a merge is the first to decide: its output has their points, and no input
has all of them. -/
def userConstraintsFor (s : Solver) (m : Merge) : List SelectionConstraint :=
  s.selection.toList.filter fun q => s.decides q m.output && !m.inputs.any (s.decides q)

/-- The selector of a merge. -/
def selectorFor (s : Solver) (m : Merge) : Selector where
  prototypeConstraints := m.prototypeConstraints
  userConstraints := s.userConstraintsFor m
  config := s.config

/-- Installs the selector of a merge between its candidates and the cell of its output. -/
def installSelector (m : Merge) (candidates : CellId Candidates) :
    SolverM (MethodId Candidates) := do
  let out ← cellOf m.output
  let s ← get
  let method := selectMethod ("select:" ++ s.clusterText m.output) (s.selectorFor m)
  changeFlow fun flow => flow.addMethod method [candidates, s.prototypeCell] [out]

/-- Replaces the selector of a merge by one with the current constraints. -/
def rebuildSelector (id : MergeId) : SolverM Unit := do
  let s ← get
  match s.decomposition.merges.find? id, s.wirings.find? id with
  | some m, some w =>
    -- Which constraints the merge decides depends on its inputs.
    let _ ← m.inputs.mapM cellOf
    -- The cell of the output must be free before the new selector takes it.
    editFlow fun flow => flow.removeMethod w.selectMethod
    let method ← installSelector m w.candidates
    modify fun s => { s with wirings := s.wirings.insert id { w with selectMethod := method } }
  | _, _ => return ()

/-- Replaces every selector and brings the dataflow up to date. -/
def rebuildSelectors : SolverM Unit := do
  (← get).roster.members.forM rebuildSelector
  propagate

/-! ### Edits -/

/-- Gives a cluster its cell. -/
def wireCluster (id : ClusterId) : SolverM Unit := do
  let label := (← get).clusterText id
  let cell ← changeFlow fun flow => .ok (flow.addCell label true none)
  modify fun s => { s with cells := s.cells.insert id cell }

/-- Gives a merge its methods. -/
def wireMerge (id : MergeId) (m : Merge) : SolverM Unit := do
  let inputs ← m.inputs.mapM cellOf
  let label := m.rule.name ++ ":" ++ (← get).clusterText m.output
  let candidates ← changeFlow fun flow => .ok (flow.addCell label true none)
  let merge ← changeFlow fun flow =>
    flow.addMultiMethod (mergeMethod m.rule m.geometry) inputs [candidates]
  let select ← installSelector m candidates
  modify fun s =>
    { s with
      wirings := s.wirings.insert id ⟨candidates, merge, select⟩
      roster := s.roster.seat id }

/-- Takes a method out if it is still there. -/
def unwireMethod (m : MethodId Candidates) : SolverM Unit := do
  if (← get).flow.methods.contains m then editFlow fun flow => flow.removeMethod m

/-- Takes a cell out if it is still there. -/
def unwireCell (c : CellId Candidates) : SolverM Unit := do
  if (← get).flow.cells.contains c then editFlow fun flow => flow.removeCell c

/-- Takes out the methods of a merge, the selector first. -/
def unwireMerge (id : MergeId) : SolverM Unit := do
  match (← get).wirings.find? id with
  | none => return ()
  | some w =>
    modify fun s => { s with wirings := s.wirings.erase id, roster := s.roster.vacate id }
    unwireMethod w.selectMethod
    unwireMethod w.mergeMethod
    unwireCell w.candidates

/-- Takes out the cell of a cluster. -/
def unwireCluster (id : ClusterId) : SolverM Unit := do
  match (← get).cells.find? id with
  | none => return ()
  | some cell =>
    modify fun s => { s with cells := s.cells.erase id }
    unwireCell cell

/-- One edit of the decomposition on the dataflow. -/
def replay : Edit → SolverM Unit
  | .clusterAdded id => wireCluster id
  | .mergeAdded id => do
    match (← get).decomposition.merges.find? id with
    | some m => wireMerge id m
    | none => return ()
  | .mergeRemoved id => unwireMerge id
  | .clusterRemoved id => unwireCluster id

/-- Takes over a changed decomposition, replays its journal and brings the dataflow up to date. -/
def restructure (d : Decomposition) : SolverM Unit := do
  modify fun s => { s with decomposition := d.withoutJournal }
  d.journal.forM replay
  propagate

end Solver

end PlanarSketch
