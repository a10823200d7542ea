/-
Methods: named computations from a list of values to a list of values.

Main definitions:
* `Method`: a computation that may fail with a `MethodError`;
* `DataflowError`: why a change or an evaluation of a dataflow is refused.
-/
namespace PlanarSketch

/-- Why a computation has no result. -/
inductive MethodError where
  | inputCount (method : String) (expected got : Nat)
  | outputCount (method : String) (expected got : Nat)
  | missingPoint (method point : String)
  | underdetermined (method : String) (shared : Nat)
deriving DecidableEq

/-- The wording of each error. -/
def MethodError.message : MethodError → String
  | .inputCount method expected got =>
    "Method " ++ method ++ " expected " ++ toString expected ++ " inputs, got " ++ toString got
  | .outputCount method expected got =>
    "Method " ++ method ++ " produced " ++ toString got ++ " values for " ++ toString expected
      ++ " outputs"
  | .missingPoint method point =>
    "Method " ++ method ++ ": input configuration lacks variable " ++ point
  | .underdetermined method shared =>
    "Method " ++ method ++ ": inputs share too few points to be merged (" ++ toString shared ++ ")"

/-- A named computation: one value per input to one value per output. -/
structure Method (V : Type) where
  name : String
  run : List V → Except MethodError (List V)

/-- Why a change or an evaluation of a dataflow is refused. -/
inductive DataflowError where
  | unknownCell
  | unknownMethod
  | alreadyDetermined (label : String)
  | cycle (method : String)
  | multiOutputCount (method : String) (outputs : Nat)
  | notMultiCell (label : String)
  | method (e : MethodError)
deriving DecidableEq

/-- The wording of each error. -/
def DataflowError.message : DataflowError → String
  | .unknownCell => "Unknown method-graph variable"
  | .unknownMethod => "Unknown method"
  | .alreadyDetermined label => "Variable " ++ label ++ " is already determined by another method"
  | .cycle name => "Adding method " ++ name ++ " would introduce a dependency cycle"
  | .multiOutputCount name outputs =>
    "Multi-method " ++ name ++ " must have exactly one output, got " ++ toString outputs
  | .notMultiCell label => "Output " ++ label ++ " of a multi-method is not a multi-variable"
  | .method e => e.message

end PlanarSketch
