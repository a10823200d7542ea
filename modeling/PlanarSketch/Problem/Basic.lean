/-
Problems: points as drawn, and constraints between them.

A problem keeps its constraints in several ways: under their handles, by what
they say, and in a graph with its points.  Changes are carried out step by
step, and those that are accepted are published to the subscribers.

Main definitions:
* `Problem`, `ProblemM`: the state, and a change of it that may be refused;
* `ProblemM.addPoint`, `removePoint`, `setPoint`: changes of points;
* `ProblemM.addConstraint`, `removeConstraint`, `setParameter`: changes of
  constraints;
* `Problem.listing`, `Problem.constraintsOn`: the constraints, oldest first;
* `Problem.verify`: whether positions solve the problem.
-/
import PlanarSketch.Problem.ConstraintGraph

namespace PlanarSketch

/-- Why a change of a problem is refused. -/
inductive ProblemError where
  | duplicatePoint (name : PointName)
  | unknownPoint (name : PointName)
  | unknownVariable (name : PointName)
  | duplicateConstraint
  | unknownConstraint
  | parameterMismatch
deriving DecidableEq

/-- The wording of each error. -/
def ProblemError.message : ProblemError → String
  | .duplicatePoint v => "Point " ++ v ++ " already exists"
  | .unknownPoint v => "Unknown point " ++ v
  | .unknownVariable v => "Constraint refers to unknown variable " ++ v
  | .duplicateConstraint => "An equivalent constraint already exists"
  | .unknownConstraint => "Unknown constraint"
  | .parameterMismatch => "Parameter does not match the constraint kind"

/-- A change of a problem. -/
inductive ProblemEvent where
  | addPoint (name : PointName)
  | removePoint (name : PointName)
  | setPoint (name : PointName)
  | addConstraint (id : ConstraintId)
  | removeConstraint (id : ConstraintId) (constraint : Constraint)
  | setParameter (id : ConstraintId)

/-- Points as drawn, and constraints between them. -/
structure Problem where
  points : OrderedMap PointName Vec
  constraints : Registry Constraint
  /-- The constraint with each key, oldest first. -/
  index : OrderedMap ConstraintKey ConstraintId
  graph : ConstraintGraph
  feed : Feed ProblemEvent

/-- A change of a problem that may be refused.  What was changed before a refusal stays changed. -/
abbrev ProblemM := ExceptT ProblemError (StateM Problem)

namespace Problem

/-- The problem without points. -/
def empty : Problem := ⟨.empty, .empty, .empty, .empty, .empty⟩

instance : Inhabited Problem := ⟨empty⟩

/-- The positions as drawn. -/
def prototype (p : Problem) : Configuration := .ofPoints p.points

/-- The constraints with their handles, oldest first. -/
def listing (p : Problem) : List (ConstraintId × Constraint) :=
  p.index.values.filterMap fun id => (p.constraints.find? id).map fun c => (id, c)

/-- The constraints on a point, oldest first. -/
def constraintsOn (p : Problem) (v : PointName) : List ConstraintId := p.graph.constraintsOn v

/-- Whether positions place every point and fulfil every constraint. -/
def verify (p : Problem) (solution : Configuration) : Bool :=
  p.points.keys.all solution.contains &&
    p.constraints.values.all fun c => c.satisfied? solution = some true

/-! ### Subscribers -/

/-- Adds a subscriber to the changes. -/
def subscribe (p : Problem) : ListenerId ProblemEvent × Problem :=
  let (l, feed) := p.feed.subscribe
  (l, { p with feed := feed })

/-- Drops a subscriber. -/
def unsubscribe (p : Problem) (l : ListenerId ProblemEvent) : Problem :=
  { p with feed := p.feed.unsubscribe l }

/-- Takes the events queued for a subscriber. -/
def drain (p : Problem) (l : ListenerId ProblemEvent) : List ProblemEvent × Problem :=
  let (events, feed) := p.feed.drain l
  (events, { p with feed := feed })

end Problem

namespace ProblemM

/-- Publishes a change. -/
def publish (event : ProblemEvent) : ProblemM Unit :=
  modify fun p => { p with feed := p.feed.publish event }

/-! ### Points -/

/-- Adds a point. -/
def addPoint (v : PointName) (position : Vec) : ProblemM Unit := do
  if (← get).points.contains v then throw (.duplicatePoint v)
  else
    modify fun p => { p with points := p.points.insert v position }
    modify fun p => { p with graph := p.graph.addPoint v }
    publish (.addPoint v)

/-- Moves a point as drawn. -/
def setPoint (v : PointName) (position : Vec) : ProblemM Unit := do
  if (← get).points.contains v then
    modify fun p => { p with points := p.points.insert v position }
    publish (.setPoint v)
  else throw (.unknownPoint v)

/-! ### Constraints -/

/-- Adds a constraint between points of the problem, unless there is one with the same key. -/
def addConstraint (c : Constraint) : ProblemM ConstraintId := do
  let p ← get
  match c.names.find? fun v => !p.points.contains v with
  | some v => throw (.unknownVariable v)
  | none =>
    if p.index.contains c.key then throw .duplicateConstraint
    else
      let id := p.constraints.nextKey
      modify fun p => { p with constraints := p.constraints.insert c }
      modify fun p => { p with index := p.index.insert c.key id }
      modify fun p => { p with graph := p.graph.addConstraint id c.names }
      publish (.addConstraint id)
      return id

/-- Removes a constraint, which is returned. -/
def removeConstraint (id : ConstraintId) : ProblemM Constraint := do
  match (← get).constraints.find? id with
  | none => throw .unknownConstraint
  | some c =>
    modify fun p => { p with constraints := p.constraints.erase id }
    modify fun p => { p with index := p.index.erase c.key }
    modify fun p => { p with graph := p.graph.removeConstraint id }
    publish (.removeConstraint id c)
    return c

/-- Gives a constraint another number. -/
def setParameter (id : ConstraintId) (x : Parameter) : ProblemM Unit := do
  match (← get).constraints.find? id with
  | none => throw .unknownConstraint
  | some c =>
    match c.withParameter? x with
    | none => throw .parameterMismatch
    | some c' =>
      modify fun p => { p with constraints := p.constraints.modify id fun _ => c' }
      publish (.setParameter id)

/-- Removes a constraint, which is returned with its handle. -/
def takeConstraint (id : ConstraintId) : ProblemM (ConstraintId × Constraint) := do
  let c ← removeConstraint id
  return (id, c)

/-- Removes a point after every constraint on it.  The constraints are returned. -/
def removePoint (v : PointName) : ProblemM (List (ConstraintId × Constraint)) := do
  let p ← get
  if p.points.contains v then
    let removed ← (p.constraintsOn v).mapM takeConstraint
    modify fun p => { p with points := p.points.erase v }
    modify fun p => { p with graph := p.graph.removePoint v }
    publish (.removePoint v)
    return removed
  else throw (.unknownPoint v)

end ProblemM

/-! ### Changes as functions -/

namespace Problem

/-- The result of a change and the problem that it leaves, unless it is refused. -/
def changed {α : Type} (p : Problem) (change : ProblemM α) : Except ProblemError (α × Problem) :=
  let (result, p) := change.run.run p
  result.map fun a => (a, p)

/-- The problem with a further point. -/
def addPoint (p : Problem) (v : PointName) (position : Vec) : Except ProblemError Problem :=
  (p.changed (ProblemM.addPoint v position)).map Prod.snd

/-- The problem with a point moved. -/
def setPoint (p : Problem) (v : PointName) (position : Vec) : Except ProblemError Problem :=
  (p.changed (ProblemM.setPoint v position)).map Prod.snd

/-- The problem without a point, and the constraints that went with it. -/
def removePoint (p : Problem) (v : PointName) :
    Except ProblemError (List (ConstraintId × Constraint) × Problem) :=
  p.changed (ProblemM.removePoint v)

/-- The problem with a further constraint, and its handle. -/
def addConstraint (p : Problem) (c : Constraint) : Except ProblemError (ConstraintId × Problem) :=
  p.changed (ProblemM.addConstraint c)

/-- The problem without a constraint, which is returned. -/
def removeConstraint (p : Problem) (id : ConstraintId) :
    Except ProblemError (Constraint × Problem) :=
  p.changed (ProblemM.removeConstraint id)

/-- The problem with another number for a constraint. -/
def setParameter (p : Problem) (id : ConstraintId) (x : Parameter) : Except ProblemError Problem :=
  (p.changed (ProblemM.setParameter id x)).map Prod.snd

end Problem

end PlanarSketch
