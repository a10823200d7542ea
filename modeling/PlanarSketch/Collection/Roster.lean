/-
Rosters: members on numbered seats.

A newcomer takes the seat that was vacated last, or a new seat at the end if
none is vacant.  Reading a roster goes from seat to seat.

Main definitions:
* `Roster.seat`, `Roster.vacate`: coming and going;
* `Roster.members`: the members in the order of their seats.
-/
namespace PlanarSketch

/-- Members on numbered seats. -/
structure Roster (α : Type) where
  /-- The seats, with the member on each that is taken. -/
  seats : List (Option α)
  /-- The vacant seats, the one vacated last in front. -/
  vacant : List Nat

namespace Roster

variable {α : Type}

/-- The roster without seats. -/
def empty : Roster α := ⟨[], []⟩

instance : Inhabited (Roster α) := ⟨empty⟩

/-- Gives a newcomer a seat. -/
def seat (r : Roster α) (a : α) : Roster α :=
  match r.vacant with
  | [] => { r with seats := r.seats ++ [some a] }
  | i :: rest => ⟨r.seats.set i (some a), rest⟩

/-- Vacates the seat of a member. -/
def vacate [DecidableEq α] (r : Roster α) (a : α) : Roster α :=
  match r.seats.findIdx? fun s => s = some a with
  | none => r
  | some i => ⟨r.seats.set i none, i :: r.vacant⟩

/-- The members in the order of their seats. -/
def members (r : Roster α) : List α := r.seats.filterMap id

end Roster

end PlanarSketch
