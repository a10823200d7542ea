/-
Propagation: bringing a dataflow up to date.

What has to be computed again is everything downstream of a changed cell or a
new method.  It is computed in an order in which a method follows the methods
that it depends on.  A failing method stops the propagation, and the cells
written before it stay marked as changed.

Main definitions:
* `Dataflow.affected`: the methods that have to run;
* `Dataflow.schedule`: the order in which they run;
* `Dataflow.execute`, `Dataflow.propagate`: one method, and all of them;
* `Dataflow.evaluations`: the methods that a propagation actually calls, with
  the values that they are given.
-/
import PlanarSketch.Dataflow.Basic

namespace PlanarSketch.Dataflow

variable {V : Type}

/-! ### What runs, and when -/

/-- The methods that read an output of a method, output by output. -/
def followers (g : Dataflow V) (m : MethodId V) : List (MethodId V) :=
  (g.outputs m).flatMap g.consumers

/-- The new methods, the readers of changed cells, and everything downstream, nearest first. -/
def affected (g : Dataflow V) : List (MethodId V) :=
  explore g.followers g.methods.size []
    (g.pending.toList ++ g.changed.toList.flatMap g.consumers)

/-- The methods among `among` that compute an input of `m`. -/
def predecessors (g : Dataflow V) (among : List (MethodId V)) (m : MethodId V) :
    OrderedSet (MethodId V) :=
  .ofList ((g.inputs m).filterMap g.determining? |>.filter (· ∈ among))

/-- How many predecessors each method still waits for. -/
abbrev WaitCounts (V : Type) := OrderedMap (MethodId V) Nat

/-- One predecessor less to wait for.  A method that waits for none is released, and so is one that
is told again. -/
def release (state : WaitCounts V × List (MethodId V)) (m : MethodId V) :
    WaitCounts V × List (MethodId V) :=
  match state.1.find? m with
  | none => state
  | some k =>
    -- A predecessor with two outputs for `m` is counted once and reports twice.
    let counts := state.1.insert m (k - 1)
    if k - 1 = 0 then (counts, state.2 ++ [m]) else (counts, state.2)

/-- The methods that become ready when all of `ready` have run. -/
def nextReady (g : Dataflow V) (counts : WaitCounts V) (ready : List (MethodId V)) :
    WaitCounts V × List (MethodId V) :=
  (ready.flatMap g.followers).foldl release (counts, [])

/-- Runs through layers of ready methods.  No dependency cycles exist, so there are at most as many
layers as methods. -/
def layers (g : Dataflow V) : Nat → WaitCounts V → List (MethodId V) → List (MethodId V)
  | 0, _, _ => []
  | steps + 1, counts, ready =>
    let (counts, next) := g.nextReady counts ready
    ready ++ layers g steps counts next

/-- The given methods in an order that respects the dependencies among them. -/
def arrange (g : Dataflow V) (among : List (MethodId V)) : List (MethodId V) :=
  let counts : WaitCounts V := .ofList (among.map fun m => (m, (g.predecessors among m).size))
  g.layers among.length counts (among.filter fun m => (g.predecessors among m).isEmpty)

/-- The order in which a propagation runs the affected methods. -/
def schedule (g : Dataflow V) : List (MethodId V) := g.arrange g.affected

/-! ### Running -/

/-- The values of the inputs, if all are set. -/
def arguments? (g : Dataflow V) (i : Installed V) : Option (List V) := i.inputs.mapM g.value?

/-- The new values of the outputs: those of the method, or none if an input is not set. -/
def results (g : Dataflow V) (i : Installed V) : Except DataflowError (List (Option V)) :=
  match g.arguments? i with
  | none => .ok (i.outputs.map fun _ => none)
  | some args =>
    match i.method.run args with
    | .error e => .error (.method e)
    | .ok values =>
      if values.length = i.outputs.length then .ok (values.map some)
      else .error (.method (.outputCount i.method.name i.outputs.length values.length))

/-- Writes values to cells one by one. -/
def writeAll (g : Dataflow V) (writes : List (CellId V × Option V)) : Dataflow V :=
  writes.foldl (fun g w => g.write w.1 w.2) g

/-- Runs one method now.  What depends on it is left to the next propagation. -/
def execute (g : Dataflow V) (m : MethodId V) : Except DataflowError (Dataflow V) :=
  match g.methods.find? m with
  | none => .error .unknownMethod
  | some i =>
    match g.results i with
    | .error e => .error e
    | .ok values => .ok (g.writeAll (i.outputs.zip values))

/-- Runs methods in order until one fails. -/
def executeAll (g : Dataflow V) : List (MethodId V) → Except DataflowError Unit × Dataflow V
  | [] => (.ok (), g)
  | m :: rest =>
    match g.execute m with
    | .error e => (.error e, g)
    | .ok g' => g'.executeAll rest

/-- Forgets what has happened. -/
def settled (g : Dataflow V) : Dataflow V := { g with changed := .empty, pending := .empty }

/-- Runs everything that is affected.  After a failure the cells written so far stay marked as
changed. -/
def propagate (g : Dataflow V) : Except DataflowError Unit × Dataflow V :=
  match g.settled.executeAll g.schedule with
  | (.ok (), g') => (.ok (), { g' with changed := .empty })
  | (.error e, g') => (.error e, g')

/-- The calls that running methods in order makes: a method with an unset input is not called, and
after a failing call nothing is. -/
def evaluations (g : Dataflow V) : List (MethodId V) → List (MethodId V × List V)
  | [] => []
  | m :: rest =>
    let call :=
      match (g.methods.find? m).bind g.arguments? with
      | some args => [(m, args)]
      | none => []
    match g.execute m with
    | .error _ => call
    | .ok g' => call ++ g'.evaluations rest

/-- The calls that a propagation makes. -/
def propagationCalls (g : Dataflow V) : List (MethodId V × List V) :=
  g.settled.evaluations g.schedule

end PlanarSketch.Dataflow
