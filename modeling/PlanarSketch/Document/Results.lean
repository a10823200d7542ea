/-
How the result of a sketch is stored.

Main definitions:
* `ResultTree.write`: a tree as a document;
* `ResultTree.readNode?`, `ResultTree.readWithin`, `ResultTree.read?`: a tree
  from a document; the depth of the document bounds the depth of the tree.
-/
import PlanarSketch.Document.Shapes
import PlanarSketch.Sketch.Result

namespace PlanarSketch

open Document

/-- The stored name of a verdict on a node. -/
def ClusterFlag.tag : ClusterFlag → String
  | .wellConstrained => "WellConstrained"
  | .incidentalUnder => "IncidentalUnder"
  | .incidentalOver => "IncidentalOver"
  | .structuralOver => "StructuralOver"
  | .structuralUnder => "StructuralUnder"
  | .unsolved => "Unsolved"

instance : Stored ClusterFlag where
  write f := .text f.tag
  read? :=
    named?
      [.wellConstrained, .incidentalUnder, .incidentalOver, .structuralOver, .structuralUnder,
        .unsolved]
      ClusterFlag.tag

/-- The stored name of a verdict on a sketch. -/
def Constrainedness.tag : Constrainedness → String
  | .unsolved => "Unsolved"
  | .wellConstrained => "WellConstrained"
  | .underConstrained => "UnderConstrained"
  | .overConstrained => "OverConstrained"
  | .error => "Error"

instance : Stored Constrainedness where
  write c := .text c.tag
  read? :=
    named? [.unsolved, .wellConstrained, .underConstrained, .overConstrained, .error]
      Constrainedness.tag

namespace ResultTree

/-- A tree as a document. -/
def write : ResultTree → Document
  | .node points solutions parts flag =>
    .record
      [("variables", writeNames points),
        ("solutions", .list (solutions.map Stored.write)),
        ("subs", .list (parts.attach.map fun t => t.1.write)),
        ("flag", Stored.write flag)]
termination_by t => sizeOf t
decreasing_by
  have := List.sizeOf_lt_of_mem t.2
  simp only [ResultTree.node.sizeOf_spec]
  omega

/-- A node from a document, given how its parts are read. -/
def readNode? (readPart : Document → Option ResultTree) (d : Document) : Option ResultTree := do
  let [points, solutions, parts, flag] ←
    d.fields? ["variables", "solutions", "subs", "flag"] | none
  return .node (← readNames? points) (← list? Stored.read? solutions) (← list? readPart parts)
    (← Stored.read? flag)

/-- A tree of at most the given depth from a document. -/
def readWithin : Nat → Document → Option ResultTree
  | 0, _ => none
  | depth + 1, d => readNode? (readWithin depth) d

/-- A tree from a document. -/
def read? (d : Document) : Option ResultTree := readWithin d.depth d

instance : Stored ResultTree where
  write := write
  read? := read?

end ResultTree

end PlanarSketch
