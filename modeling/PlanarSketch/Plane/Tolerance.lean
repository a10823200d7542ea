/-
Approximate comparison of numbers.

Two numbers count as equal when they differ by at most an absolute tolerance.
An infinity equals the infinity of the same sign and nothing else.

Main definitions:
* `Tolerance.near` and the order relations built on it;
* `Tolerance.standard`: the tolerance that every geometric decision uses.
-/
namespace PlanarSketch

/-- How far apart two numbers may be and still count as equal. -/
structure Tolerance where
  absolute : Float

namespace Tolerance

/-- The tolerance of every geometric decision. -/
def standard : Tolerance := ⟨1e-6⟩

/-- Equal up to the tolerance. -/
def near (t : Tolerance) (a b : Float) : Bool :=
  if a == b then true
  else if a.isInf || b.isInf then false
  else (a - b).abs ≤ t.absolute

/-- Not equal, also up to the tolerance. -/
def apart (t : Tolerance) (a b : Float) : Bool := !t.near a b

/-- Smaller by more than the tolerance. -/
def below (t : Tolerance) (a b : Float) : Bool := a < b && !t.near a b

/-- Greater by more than the tolerance. -/
def above (t : Tolerance) (a b : Float) : Bool := a > b && !t.near a b

/-- Smaller or equal up to the tolerance. -/
def atMost (t : Tolerance) (a b : Float) : Bool := a < b || t.near a b

/-- Greater or equal up to the tolerance. -/
def atLeast (t : Tolerance) (a b : Float) : Bool := a > b || t.near a b

/-- Zero up to the tolerance. -/
def nearZero (t : Tolerance) (a : Float) : Bool := t.near a 0.0

end Tolerance

end PlanarSketch
