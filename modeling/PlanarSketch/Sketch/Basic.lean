/-
Sketches: a problem and the solver that follows it.

A sketch turns its problem into clusters.  Every point is a rigid of one
point at the place where it was drawn, a distance is a rigid of two points, an
angle a hedgehog with arms of unit length, and all fixed points together are
one rigid, which is the root.  Changes of the problem reach the solver as
events.

Main definitions:
* `Sketch`, `SketchM`: the state, and a change of it that may fail;
* `Sketch.follow`: one event of the problem on the solver;
* `Sketch.ofProblem`: a sketch from a problem;
* `Sketch.addPoint`, … `Sketch.setParameter`: changes of the problem that the
  solver follows.
-/
import PlanarSketch.Problem.Basic
import PlanarSketch.Solver.Operations

namespace PlanarSketch

/-- Why a change of a sketch fails. -/
inductive SketchError where
  | problem (e : ProblemError)
  | solver (e : SolverError)
  | cluster (e : ClusterError)
deriving DecidableEq

/-- The wording of each error. -/
def SketchError.message : SketchError → String
  | .problem e => e.message
  | .solver e => e.message
  | .cluster e => e.message

/-- A problem and the solver that follows it. -/
structure Sketch where
  problem : Problem
  /-- The subscription of the sketch to the changes of its problem. -/
  listener : ListenerId ProblemEvent
  solver : Solver
  /-- The cluster of each point. -/
  points : OrderedMap PointName ClusterId
  /-- The cluster of each distance and angle. -/
  clusters : OrderedMap ConstraintId ClusterId
  /-- The fixed positions. -/
  fixed : OrderedMap PointName Vec
  /-- The cluster of the fixed points. -/
  root : Option ClusterId

/-- A change of a sketch that may fail.  What was changed before a failure stays changed. -/
abbrev SketchM := ExceptT SketchError (StateM Sketch)

namespace Sketch

/-- Runs a change of the problem. -/
def runProblem {α : Type} (change : ProblemM α) : SketchM α := do
  let s ← get
  let (result, problem) := change.run.run s.problem
  set { s with problem := problem }
  match result with
  | .ok a => return a
  | .error e => throw (.problem e)

/-- Runs a change of the solver. -/
def runSolver {α : Type} (change : SolverM α) : SketchM α := do
  let s ← get
  let (result, solver) := change.run.run s.solver
  set { s with solver := solver }
  match result with
  | .ok a => return a
  | .error e => throw (.solver e)

/-- A cluster, or the reason why it is none. -/
def requireCluster (c : Except ClusterError Cluster) : SketchM Cluster :=
  match c with
  | .ok c => return c
  | .error e => throw (.cluster e)

/-- A constraint of the problem. -/
def requireConstraint (id : ConstraintId) : SketchM Constraint := do
  match (← get).problem.constraints.find? id with
  | some c => return c
  | none => throw (.problem .unknownConstraint)

/-- The position of a point as drawn. -/
def requirePoint (v : PointName) : SketchM Vec := do
  match (← get).problem.points.find? v with
  | some p => return p
  | none => throw (.problem (.unknownPoint v))

/-! ### Points and numbers as configurations -/

/-- Two points at a distance. -/
def distanceConfiguration (a b : PointName) (x : Float) : Configuration :=
  .ofList [(a, .zero), (b, ⟨x, 0.0⟩)]

/-- Two arms of unit length with an angle between them, clockwise from `a` to `c`. -/
def angleConfiguration (a b c : PointName) (x : Float) : Configuration :=
  let arm : Vec := ⟨1.0, 0.0⟩
  .ofList [(b, .zero), (a, arm), (c, arm.rotate (-x))]

/-- The fixed points at their positions. -/
def fixedConfiguration (s : Sketch) : Configuration := .ofPoints s.fixed

/-- Gives the cluster of a constraint its configuration. -/
def assignCluster (id : ConstraintId) (conf : Configuration) : SketchM Unit := do
  match (← get).clusters.find? id with
  | some cluster => runSolver (Solver.assign cluster [conf])
  | none => throw (.problem .unknownConstraint)

/-- Passes the number of a constraint on to the solver. -/
def updateParameter (id : ConstraintId) : Constraint → SketchM Unit
  | .distance a b x => assignCluster id (distanceConfiguration a b x)
  | .angle a b c x => assignCluster id (angleConfiguration a b c x)
  | .fix v p => do
    modify fun s => { s with fixed := s.fixed.insert v p }
    let s ← get
    match s.root with
    | some root => runSolver (Solver.assign root [s.fixedConfiguration])
    | none => return ()
  | .selection _ => return ()

/-! ### Following the problem -/

/-- Removes the cluster of the fixed points. -/
def dropRoot : SketchM Unit := do
  match (← get).root with
  | some old =>
    -- A failure from here on leaves the sketch without a root.
    modify fun s => { s with root := none }
    runSolver (Solver.remove old)
  | none => return ()

/-- Adds the cluster of the fixed points, if there are any, and makes it the root. -/
def raiseRoot : SketchM Unit := do
  let s ← get
  if s.fixed.size ≠ 0 then
    let cluster ← requireCluster (Cluster.rigidOf s.fixed.keys)
    let root ← runSolver (Solver.add cluster)
    runSolver (Solver.assign root [s.fixedConfiguration])
    runSolver (Solver.setRoot root)
    modify fun s => { s with root := some root }

/-- Replaces the cluster of the fixed points. -/
def rebuildRoot : SketchM Unit := do
  dropRoot
  raiseRoot

/-- Adds the cluster of a point. -/
def addPointCluster (v : PointName) (p : Vec) : SketchM Unit := do
  runSolver (Solver.setPrototype v p)
  let cluster ← requireCluster (Cluster.rigidOf [v])
  let id ← runSolver (Solver.add cluster)
  runSolver (Solver.assign id [.single v p])
  modify fun s => { s with points := s.points.insert v id }

/-- Adds the cluster of a distance or an angle. -/
def addConstraintCluster (id : ConstraintId) (c : Constraint)
    (cluster : Except ClusterError Cluster) : SketchM Unit := do
  let cluster ← requireCluster cluster
  let key ← runSolver (Solver.add cluster)
  modify fun s => { s with clusters := s.clusters.insert id key }
  updateParameter id c

/-- Passes a new constraint on to the solver. -/
def followConstraint (id : ConstraintId) (constraint : Constraint) : SketchM Unit :=
  match constraint with
  | .distance a b _ => addConstraintCluster id constraint (Cluster.rigidOf [a, b])
  | .angle a b c _ => addConstraintCluster id constraint (Cluster.hedgehogOf b [a, c])
  | .fix v p => do
    modify fun s => { s with fixed := s.fixed.insert v p }
    rebuildRoot
  | .selection q => do
    let _ ← runSolver (Solver.addSelection q)
    return ()

/-- Removes the cluster of a distance or an angle. -/
def dropConstraintCluster (id : ConstraintId) : SketchM Unit := do
  match (← get).clusters.find? id with
  | some cluster =>
    modify fun s => { s with clusters := s.clusters.erase id }
    runSolver (Solver.remove cluster)
  | none => return ()

/-- Takes a constraint back. -/
def unfollowConstraint (id : ConstraintId) : Constraint → SketchM Unit
  | .distance _ _ _ => dropConstraintCluster id
  | .angle _ _ _ _ => dropConstraintCluster id
  | .fix v _ => do
    modify fun s => { s with fixed := s.fixed.erase v }
    rebuildRoot
  | .selection q => do
    let _ ← runSolver (Solver.removeSelection q)
    return ()

/-- Removes the cluster of a point. -/
def dropPointCluster (v : PointName) : SketchM Unit := do
  match (← get).points.find? v with
  | some cluster =>
    modify fun s => { s with points := s.points.erase v }
    runSolver (Solver.remove cluster)
  | none => return ()

/-- Moves the cluster of a point. -/
def movePointCluster (v : PointName) (p : Vec) : SketchM Unit := do
  match (← get).points.find? v with
  | some cluster => runSolver (Solver.assign cluster [.single v p])
  | none => return ()

/-- One event of the problem on the solver. -/
def follow : ProblemEvent → SketchM Unit
  | .addPoint v => do
    let p ← requirePoint v
    addPointCluster v p
  | .removePoint v => do
    dropPointCluster v
    runSolver (Solver.clearPrototype v)
  | .setPoint v => do
    let p ← requirePoint v
    movePointCluster v p
    runSolver (Solver.setPrototype v p)
  | .addConstraint id => do
    let c ← requireConstraint id
    followConstraint id c
  | .removeConstraint id c => unfollowConstraint id c
  | .setParameter id => do
    let c ← requireConstraint id
    updateParameter id c

/-- Follows every event that is queued; a failure leaves out the later ones. -/
def sync : SketchM Unit := do
  let s ← get
  let (events, problem) := s.problem.drain s.listener
  set { s with problem := problem }
  events.forM follow

/-! ### Making and changing sketches -/

/-- Follows everything that is already in the problem. -/
def followAll : SketchM Unit := do
  let s ← get
  s.problem.points.entries.forM fun e => addPointCluster e.1 e.2
  s.problem.listing.forM fun e => followConstraint e.1 e.2

/-- A sketch that has subscribed to a problem and not followed anything yet. -/
def subscribed (problem : Problem) (config : SolverConfig) : Sketch :=
  let (listener, problem) := problem.subscribe
  { problem := problem
    listener := listener
    solver := .withConfig config
    points := .empty
    clusters := .empty
    fixed := .empty
    root := none }

/-- A sketch of a problem. -/
def ofProblem (problem : Problem) (config : SolverConfig) : Except SketchError Sketch :=
  match followAll.run.run (subscribed problem config) with
  | (.ok (), s) => .ok s
  | (.error e, _) => .error e

/-- Changes the problem and follows the change. -/
def change {α : Type} (f : ProblemM α) : SketchM α := do
  let a ← runProblem f
  sync
  return a

/-- Adds a point. -/
def addPoint (v : PointName) (p : Vec) : SketchM Unit := change (ProblemM.addPoint v p)

/-- Moves a point as drawn. -/
def setPoint (v : PointName) (p : Vec) : SketchM Unit := change (ProblemM.setPoint v p)

/-- Removes a point and every constraint on it. -/
def removePoint (v : PointName) : SketchM Unit := do
  let _ ← change (ProblemM.removePoint v)
  return ()

/-- Adds a constraint. -/
def addConstraint (c : Constraint) : SketchM ConstraintId := change (ProblemM.addConstraint c)

/-- Removes a constraint, which is returned. -/
def removeConstraint (id : ConstraintId) : SketchM Constraint :=
  change (ProblemM.removeConstraint id)

/-- Gives a constraint another number. -/
def setParameter (id : ConstraintId) (x : Parameter) : SketchM Unit :=
  change (ProblemM.setParameter id x)

end Sketch

end PlanarSketch
