/-
Documents: trees of texts, numbers, lists and records.

A document is what a value is written to and read from.  A choice between
alternatives is a record with the name of the alternative as its only field,
or just that name if nothing goes with it.  A structure is a record of its
fields, and can also be read from the list of their contents.

Main definitions:
* `Document` and its `depth`;
* `Document.ofNumber`: how numbers are written;
* `Document.alternative?`, `Document.fields?`, `Document.namedFields?`: how
  choices and structures are taken apart;
* `Stored`: types that can be written and read.
-/
namespace PlanarSketch

/-- A tree of texts, numbers, lists and records. -/
inductive Document where
  | null
  | bool (b : Bool)
  | number (x : Float)
  | text (s : String)
  | list (items : List Document)
  | record (fields : List (String × Document))

namespace Document

instance : Inhabited Document := ⟨.null⟩

/-! ### Depth -/

/-- The number of levels of a document. -/
def depth : Document → Nat
  | .list items => 1 + (items.attach.map fun d => d.1.depth).foldr max 0
  | .record fields => 1 + (fields.attach.map fun f => f.1.2.depth).foldr max 0
  | _ => 1
termination_by d => sizeOf d
decreasing_by
  · have := List.sizeOf_lt_of_mem d.2
    simp only [Document.list.sizeOf_spec]
    omega
  · have := List.sizeOf_lt_of_mem f.2
    have hs : sizeOf f.1.2 < sizeOf f.1 := by
      cases f.1
      simp only [Prod.mk.sizeOf_spec]
      omega
    simp only [Document.record.sizeOf_spec]
    omega

/-! ### Numbers -/

/-- A number as a document.  Only finite numbers have a notation; the others leave nothing
behind. -/
def ofNumber (x : Float) : Document := if x.isFinite then .number x else .null

/-! ### Reading -/

/-- A text. -/
def text? : Document → Option String
  | .text s => some s
  | _ => none

/-- A number. -/
def number? : Document → Option Float
  | .number x => some x
  | _ => none

/-- A truth value. -/
def bool? : Document → Option Bool
  | .bool b => some b
  | _ => none

/-- A list whose items can all be read. -/
def list? {α : Type} (read : Document → Option α) : Document → Option (List α)
  | .list items => items.mapM read
  | _ => none

/-- The name of an alternative and what goes with it, which is nothing for a bare name. -/
def alternative? : Document → Option (String × Document)
  | .text tag => some (tag, .null)
  | .record [(tag, content)] => some (tag, content)
  | _ => none

/-- The content of the only field of a given name. -/
def field? (name : String) (fields : List (String × Document)) : Option Document :=
  match fields.filter fun f => f.1 = name with
  | [f] => some f.2
  | _ => none

/-- The contents of the named fields of a record, each of which stands there once; further fields do
not matter. -/
def namedFields? (names : List String) : Document → Option (List Document)
  | .record fields => names.mapM fun n => field? n fields
  | _ => none

/-- The contents of the fields of a structure, from a record or from a list of just these
contents. -/
def fields? (names : List String) : Document → Option (List Document)
  | .list items => if items.length = names.length then some items else none
  | d => d.namedFields? names

/-- An alternative with its content. -/
def tagged (tag : String) (content : Document) : Document := .record [(tag, content)]

/-- The member of a list of values that has the name of a bare alternative. -/
def named? {α : Type} (all : List α) (name : α → String) (d : Document) : Option α :=
  match d.alternative? with
  | some (tag, .null) => all.find? fun a => name a = tag
  | _ => none

end Document

/-- Types whose values can be written to documents and read back. -/
class Stored (α : Type) where
  write : α → Document
  read? : Document → Option α

end PlanarSketch
