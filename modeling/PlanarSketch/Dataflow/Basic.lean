/-
Dataflows: cells and the methods that compute them.

Every cell is computed by at most one method, and no cell leads back to
itself; a method that would break either rule is refused and nothing changes.
A dataflow remembers which cells have changed and which methods are new, so
that only what is affected has to be computed again.  The dependencies are
also kept as a graph, the topology, in which a new method is checked for
cycles.

Main definitions:
* `Dataflow.addCell`, `removeCell`, `set`, `clear`: changes of cells;
* `Dataflow.addMethod`, `removeMethod`: changes of methods;
* `Dataflow.consumers`, `determining?`, `leadsTo`: the dependencies.
-/
import PlanarSketch.Dataflow.Method
import PlanarSketch.Graph.Search

namespace PlanarSketch

/-- A place for a value. -/
structure Cell (V : Type) where
  label : String
  value : Option V
  /-- Whether the value is a list of candidates. -/
  multi : Bool

/-- The key of a cell. -/
abbrev CellId (V : Type) := Key (Cell V)

/-- A method together with the cells that it reads and writes. -/
structure Installed (V : Type) where
  method : Method V
  inputs : List (CellId V)
  outputs : List (CellId V)

/-- The key of an installed method. -/
abbrev MethodId (V : Type) := Key (Installed V)

/-- A vertex of the topology. -/
inductive FlowNode (V : Type) where
  | cell (c : CellId V)
  | method (m : MethodId V)

instance (V : Type) : DecidableEq (FlowNode V)
  | .cell c, .cell d => decidable_of_iff (c = d) (FlowNode.cell.injEq c d ▸ Iff.rfl)
  | .method m, .method n => decidable_of_iff (m = n) (FlowNode.method.injEq m n ▸ Iff.rfl)
  | .cell _, .method _ => isFalse nofun
  | .method _, .cell _ => isFalse nofun

/-- Cells, the methods that compute them, and what has happened since the last propagation. -/
structure Dataflow (V : Type) where
  cells : Registry (Cell V)
  methods : Registry (Installed V)
  /-- An edge leads from every input to its method and from every method to its outputs. -/
  topology : Graph (FlowNode V) Unit
  /-- The cells whose value was set, cleared or computed. -/
  changed : OrderedSet (CellId V)
  /-- The methods that have been added. -/
  pending : OrderedSet (MethodId V)

namespace Dataflow

variable {V : Type}

/-- The dataflow without cells. -/
def empty : Dataflow V := ⟨.empty, .empty, .empty, .empty, .empty⟩

instance : Inhabited (Dataflow V) := ⟨empty⟩

/-! ### Dependencies -/

/-- The cells that a method reads. -/
def inputs (g : Dataflow V) (m : MethodId V) : List (CellId V) :=
  match g.methods.find? m with
  | some i => i.inputs
  | none => []

/-- The cells that a method writes. -/
def outputs (g : Dataflow V) (m : MethodId V) : List (CellId V) :=
  match g.methods.find? m with
  | some i => i.outputs
  | none => []

/-- The methods that read a cell, oldest first. -/
def consumers (g : Dataflow V) (c : CellId V) : List (MethodId V) :=
  (g.methods.entries.filter fun e => c ∈ e.2.inputs).map Prod.fst

/-- The method that writes a cell. -/
def determining? (g : Dataflow V) (c : CellId V) : Option (MethodId V) :=
  (g.methods.entries.find? fun e => c ∈ e.2.outputs).map Prod.fst

/-- The cells that are computed from a cell in one step. -/
def dependents (g : Dataflow V) (c : CellId V) : List (CellId V) :=
  (g.consumers c).flatMap g.outputs

/-- Whether a path of the topology leads from one cell to another or the same one. -/
def leadsTo (g : Dataflow V) (c d : CellId V) : Bool :=
  (g.topology.path? (.cell c) (.cell d)).isSome

/-! ### Cells -/

/-- The value of a cell. -/
def value? (g : Dataflow V) (c : CellId V) : Option V := (g.cells.find? c).bind Cell.value

/-- The label of a cell. -/
def label? (g : Dataflow V) (c : CellId V) : Option String := (g.cells.find? c).map Cell.label

/-- Whether a cell holds candidates. -/
def isMulti (g : Dataflow V) (c : CellId V) : Bool := ((g.cells.find? c).map Cell.multi).getD false

/-- Adds a cell. -/
def addCell (g : Dataflow V) (label : String) (multi : Bool) (value : Option V) :
    CellId V × Dataflow V :=
  (g.cells.nextKey,
    { g with
      cells := g.cells.insert ⟨label, value, multi⟩
      topology := g.topology.addVertex (.cell g.cells.nextKey) })

/-- Gives a cell a value, or none, and marks it as changed. -/
def write (g : Dataflow V) (c : CellId V) (value : Option V) : Dataflow V :=
  if g.cells.contains c then
    { g with
      cells := g.cells.modify c fun cell => { cell with value := value }
      changed := g.changed.insert c }
  else g

/-- Gives a cell a value. -/
def set (g : Dataflow V) (c : CellId V) (value : V) : Except DataflowError (Dataflow V) :=
  if g.cells.contains c then .ok (g.write c (some value)) else .error .unknownCell

/-- Takes the value of a cell away. -/
def clear (g : Dataflow V) (c : CellId V) : Except DataflowError (Dataflow V) :=
  if g.cells.contains c then .ok (g.write c none) else .error .unknownCell

/-! ### Methods -/

/-- Takes out a method but not the values that it computed. -/
def uninstall (g : Dataflow V) (m : MethodId V) : Dataflow V :=
  { g with
    methods := g.methods.erase m
    pending := g.pending.erase m
    topology := g.topology.removeVertex (.method m) }

/-- Takes out a method and the values that it computed. -/
def dropMethod (g : Dataflow V) (m : MethodId V) : Dataflow V :=
  (g.outputs m).foldl (fun g c => g.write c none) (g.uninstall m)

/-- Removes a method and clears the cells that it computed. -/
def removeMethod (g : Dataflow V) (m : MethodId V) : Except DataflowError (Dataflow V) :=
  if g.methods.contains m then .ok (g.dropMethod m) else .error .unknownMethod

/-- The methods that read a cell and then the one that writes it. -/
def around (g : Dataflow V) (c : CellId V) : List (MethodId V) :=
  g.consumers c ++ (g.determining? c).toList

/-- Removes a cell together with every method that reads or writes it. -/
def removeCell (g : Dataflow V) (c : CellId V) : Except DataflowError (Dataflow V) :=
  if g.cells.contains c then
    -- The methods go first, so that their other outputs are cleared.
    let bare := (g.around c).foldl dropMethod g
    .ok
      { bare with
        cells := bare.cells.erase c
        changed := bare.changed.erase c
        topology := bare.topology.removeVertex (.cell c) }
  else .error .unknownCell

/-- Looks at the outputs of a new method one by one; `seen` are those before. -/
def checkOutputs (g : Dataflow V) (name : String) (inputs : List (CellId V)) :
    List (CellId V) → List (CellId V) → Except DataflowError Unit
  | _, [] => .ok ()
  | seen, c :: rest =>
    if c ∈ seen || (g.determining? c).isSome then
      .error (.alreadyDetermined ((g.label? c).getD ""))
    else if inputs.any (g.leadsTo c) then .error (.cycle name)
    else checkOutputs g name inputs (seen ++ [c]) rest

/-- The topology with the edges of a method. -/
def linked (g : Dataflow V) (m : MethodId V) (i : Installed V) : Graph (FlowNode V) Unit :=
  let reads := i.inputs.foldl (fun t c => t.addEdge (.cell c) (.method m) ()) g.topology
  i.outputs.foldl (fun t c => t.addEdge (.method m) (.cell c) ()) reads

/-- Puts a method in under a new key. -/
def install (g : Dataflow V) (i : Installed V) : Dataflow V :=
  { g with
    methods := g.methods.insert i
    pending := g.pending.insert g.methods.nextKey
    topology := g.linked g.methods.nextKey i }

/-- Installs a method.  It is refused if a cell is unknown, an output stands twice or has a method
already, or an output leads to an input. -/
def addMethod (g : Dataflow V) (method : Method V) (inputs outputs : List (CellId V)) :
    Except DataflowError (MethodId V × Dataflow V) :=
  if (inputs ++ outputs).any fun c => !g.cells.contains c then .error .unknownCell
  else
    match g.checkOutputs method.name inputs [] outputs with
    | .error e => .error e
    | .ok () => .ok (g.methods.nextKey, g.install ⟨method, inputs, outputs⟩)

/-- How much is stored and how much has changed. -/
def summary (g : Dataflow V) : String :=
  "MethodGraph \x7b variables: " ++ toString g.cells.size ++ ", methods: "
    ++ toString g.methods.size ++ ", changed: " ++ toString g.changed.size ++ " \x7d"

end Dataflow

end PlanarSketch
