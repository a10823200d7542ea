/-
Methods over lists of candidates.

A multi-method is written for single values.  Over lists of candidates it is
called once for every combination, the last input varying fastest, and its
results are gathered without repetition.

Main definitions:
* `combinations`: every choice of one candidate per list;
* `gather`: the results of a rule on a list of combinations;
* `MultiMethod.lift`: the method over lists of candidates.
-/
import PlanarSketch.Dataflow.Basic

namespace PlanarSketch

variable {T : Type}

/-- A named computation: one value per input to all candidates for the output. -/
structure MultiMethod (T : Type) where
  name : String
  run : List T → Except MethodError (List T)

/-- Every choice of one candidate per list, in lexicographic order. -/
def combinations : List (List T) → List (List T)
  | [] => [[]]
  | candidates :: rest => candidates.flatMap fun x => (combinations rest).map fun c => x :: c

/-- Appends a value unless one that is kept equals it. -/
def keepNew [BEq T] (kept : List T) (x : T) : List T :=
  if kept.any fun y => y == x then kept else kept ++ [x]

/-- Adds the results of a rule on each combination to those kept, until the rule fails. -/
def gather [BEq T] (rule : List T → Except MethodError (List T)) :
    List T → List (List T) → Except MethodError (List T)
  | kept, [] => .ok kept
  | kept, c :: rest =>
    match rule c with
    | .error e => .error e
    | .ok values => gather rule (values.foldl keepNew kept) rest

/-- The combinations on which a rule is tried: all up to the first on which it fails. -/
def attempted (rule : List T → Except MethodError (List T)) : List (List T) → List (List T)
  | [] => []
  | c :: rest =>
    match rule c with
    | .error _ => [c]
    | .ok _ => c :: attempted rule rest

namespace MultiMethod

/-- The method over lists of candidates. -/
def lift [BEq T] (m : MultiMethod T) : Method (List T) where
  name := m.name
  run := fun inputs => (gather m.run [] (combinations inputs)).map fun values => [values]

/-- The combinations that the lifted method tries on given lists of candidates. -/
def trials (m : MultiMethod T) (inputs : List (List T)) : List (List T) :=
  attempted m.run (combinations inputs)

end MultiMethod

/-- Installs a multi-method, which must have one output, a cell for candidates. -/
def Dataflow.addMultiMethod [BEq T] (g : Dataflow (List T)) (m : MultiMethod T)
    (inputs outputs : List (CellId (List T))) :
    Except DataflowError (MethodId (List T) × Dataflow (List T)) :=
  match outputs with
  | [output] =>
    if !g.cells.contains output then .error .unknownCell
    else if !g.isMulti output then .error (.notMultiCell ((g.label? output).getD ""))
    else g.addMethod m.lift inputs outputs
  | _ => .error (.multiOutputCount m.name outputs.length)

end PlanarSketch
