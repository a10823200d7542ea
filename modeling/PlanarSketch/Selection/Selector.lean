/-
Selectors: how candidates of a merge are thinned out.

The constraints of the user rule candidates out.  Among what is left a
selector prefers the candidates that agree with the prototype, that is, with
the sketch as it was drawn.

Main definitions:
* `Selector.admitted`: the candidates that no user constraint rules out;
* `Selector.matching`: those that agree with the prototype;
* `Selector.select`: the choice.
-/
import PlanarSketch.Selection.Basic

namespace PlanarSketch

/-- What to keep when no candidate agrees with the prototype. -/
inductive AmbiguityFallback where
  | firstCandidate
  | keepAll
deriving DecidableEq

/-- How a solver chooses between candidates. -/
structure SolverConfig where
  /-- Whether the prototype decides between mirror images. -/
  usePrototype : Bool := true
  fallback : AmbiguityFallback := .firstCandidate
deriving DecidableEq

/-- A choice between the candidates of one merge. -/
structure Selector where
  /-- Questions whose answers are compared with those of the prototype. -/
  prototypeConstraints : List SelectionConstraint
  /-- Questions that must not be answered with no. -/
  userConstraints : List SelectionConstraint
  config : SolverConfig

namespace Selector

/-- No user constraint is violated; one that lacks a point is not. -/
def admits (s : Selector) (c : Configuration) : Bool :=
  s.userConstraints.all fun q => q.evaluate? c ≠ some false

/-- The candidates that no user constraint rules out. -/
def admitted (s : Selector) (candidates : List Configuration) : List Configuration :=
  candidates.filter s.admits

/-- Every prototype question has the same answer on both. -/
def agrees (s : Selector) (prototype c : Configuration) : Bool :=
  s.prototypeConstraints.all fun q => q.evaluate? c = q.evaluate? prototype

/-- The candidates that agree with the prototype. -/
def matching (s : Selector) (prototype : Configuration) (kept : List Configuration) :
    List Configuration :=
  kept.filter (s.agrees prototype)

/-- Whether the prototype is asked at all. -/
def asksPrototype (s : Selector) : Bool := s.config.usePrototype && !s.prototypeConstraints.isEmpty

/-- Chooses among admitted candidates by the prototype. -/
def prefer (s : Selector) (prototype : Configuration) (kept : List Configuration) :
    List Configuration :=
  match s.matching prototype kept with
  | [] =>
    match s.config.fallback with
    | .firstCandidate => kept.take 1
    | .keepAll => kept
  | agreeing => agreeing

/-- The admitted candidates; if there are several and the prototype is asked, those that agree with
it, or what the fallback keeps. -/
def select (s : Selector) (candidates : List Configuration) (prototype : Option Configuration) :
    List Configuration :=
  let kept := s.admitted candidates
  -- A single candidate is kept whatever the prototype says.
  if kept.length < 2 || !s.asksPrototype then kept
  else
    match prototype with
    | none => kept
    | some p => s.prefer p kept

end Selector

end PlanarSketch
