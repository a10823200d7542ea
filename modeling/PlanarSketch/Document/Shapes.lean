/-
How clusters, constraints and configurations are stored.

Reading checks the shape of a document and nothing else: a cluster that is too
small and a distance in the wrong order are read as they stand.
-/
import PlanarSketch.Document.Basic
import PlanarSketch.Merge.Rule
import PlanarSketch.Problem.Constraint
import PlanarSketch.Selection.Selector

namespace PlanarSketch

open Document

/-! ### Names and sets -/

instance : Stored PointName where
  write := .text
  read? := text?

/-- A list of names as a document. -/
def writeNames (l : List PointName) : Document := .list (l.map .text)

/-- A list of names from a document. -/
def readNames? (d : Document) : Option (List PointName) := list? text? d

/-! ### Relations -/

instance : Stored Distance where
  write d := .record [("a", .text d.a), ("b", .text d.b)]
  read? d := do
    let [a, b] ← d.fields? ["a", "b"] | none
    return ⟨← a.text?, ← b.text?⟩

instance : Stored Angle where
  write a := .record [("a", .text a.a), ("vertex", .text a.vertex), ("c", .text a.c)]
  read? d := do
    let [a, vertex, c] ← d.fields? ["a", "vertex", "c"] | none
    return ⟨← a.text?, ← vertex.text?, ← c.text?⟩

instance : Stored Relation where
  write
    | .distance d => tagged "Distance" (Stored.write d)
    | .angle a => tagged "Angle" (Stored.write a)
  read? d := do
    match ← d.alternative? with
    | ("Distance", content) => return .distance (← Stored.read? content)
    | ("Angle", content) => return .angle (← Stored.read? content)
    | _ => none

/-! ### Clusters -/

/-- The stored name of a kind. -/
def ClusterKind.tag : ClusterKind → String
  | .rigid => "Rigid"
  | .hedgehog => "Hedgehog"
  | .balloon => "Balloon"

instance : Stored ClusterKind where
  write k := .text k.tag
  read? := named? [.rigid, .hedgehog, .balloon] ClusterKind.tag

instance : Stored Cluster where
  write
    | .rigid p => tagged "Rigid" (.record [("vars", writeNames p.toList)])
    | .hedgehog c arms =>
      tagged "Hedgehog" (.record [("cvar", .text c), ("xvars", writeNames arms.toList)])
    | .balloon p => tagged "Balloon" (.record [("vars", writeNames p.toList)])
  read? d := do
    match ← d.alternative? with
    | ("Rigid", content) => do
      let [vars] ← content.namedFields? ["vars"] | none
      return .rigid (.ofList (← readNames? vars))
    | ("Hedgehog", content) => do
      let [centre, arms] ← content.namedFields? ["cvar", "xvars"] | none
      return .hedgehog (← centre.text?) (.ofList (← readNames? arms))
    | ("Balloon", content) => do
      let [vars] ← content.namedFields? ["vars"] | none
      return .balloon (.ofList (← readNames? vars))
    | _ => none

/-! ### Selection -/

/-- The stored name of a kind of question. -/
def SelectionKind.tag : SelectionKind → String
  | .notClockwise => "NotClockwise"
  | .notCounterClockwise => "NotCounterClockwise"
  | .notAcute => "NotAcute"
  | .notObtuse => "NotObtuse"

/-- Every kind of question. -/
def SelectionKind.all : List SelectionKind :=
  [.notClockwise, .notCounterClockwise, .notAcute, .notObtuse]

instance : Stored SelectionConstraint where
  write s := tagged s.kind.tag (writeNames s.names)
  read? d := do
    let (tag, content) ← d.alternative?
    let kind ← SelectionKind.all.find? fun k => k.tag = tag
    let [a, b, c] ← readNames? content | none
    return ⟨kind, a, b, c⟩

/-- The stored name of a fallback. -/
def AmbiguityFallback.tag : AmbiguityFallback → String
  | .firstCandidate => "FirstCandidate"
  | .keepAll => "KeepAll"

instance : Stored AmbiguityFallback where
  write f := .text f.tag
  read? := named? [.firstCandidate, .keepAll] AmbiguityFallback.tag

instance : Stored SolverConfig where
  write c :=
    .record [("use_prototype", .bool c.usePrototype), ("fallback", Stored.write c.fallback)]
  read? d := do
    let [usePrototype, fallback] ← d.fields? ["use_prototype", "fallback"] | none
    return ⟨← usePrototype.bool?, ← Stored.read? fallback⟩

/-! ### Positions -/

instance : Stored Vec where
  write v := .list [.ofNumber v.x, .ofNumber v.y]
  read? d := do
    let [x, y] ← list? number? d | none
    return ⟨x, y⟩

/-- Positions by name. -/
def writePoints (m : OrderedMap PointName Vec) : Document :=
  .record (m.entries.map fun e => (e.1, Stored.write e.2))

/-- Positions by name, in the order of the fields. -/
def readPoints? : Document → Option (OrderedMap PointName Vec)
  | .record fields => do
    let entries ← fields.mapM fun f => do return (f.1, ← Stored.read? f.2)
    return .ofList entries
  | _ => none

instance : Stored Configuration where
  write c :=
    .record [("map", writePoints c.points), ("underconstrained", .bool c.underconstrained)]
  read? d := do
    let [points, flag] ← d.fields? ["map", "underconstrained"] | none
    return ⟨← readPoints? points, ← flag.bool?⟩

/-! ### Constraints -/

instance : Stored Constraint where
  write
    | .distance a b x =>
      tagged "Distance" (.record [("a", .text a), ("b", .text b), ("distance", .ofNumber x)])
    | .angle a b c x =>
      tagged "Angle"
        (.record [("a", .text a), ("b", .text b), ("c", .text c), ("angle", .ofNumber x)])
    | .fix v p => tagged "Fix" (.record [("var", .text v), ("position", Stored.write p)])
    | .selection s => tagged "Selection" (Stored.write s)
  read? d := do
    match ← d.alternative? with
    | ("Distance", content) => do
      let [a, b, x] ← content.namedFields? ["a", "b", "distance"] | none
      return .distance (← a.text?) (← b.text?) (← x.number?)
    | ("Angle", content) => do
      let [a, b, c, x] ← content.namedFields? ["a", "b", "c", "angle"] | none
      return .angle (← a.text?) (← b.text?) (← c.text?) (← x.number?)
    | ("Fix", content) => do
      let [v, p] ← content.namedFields? ["var", "position"] | none
      return .fix (← v.text?) (← Stored.read? p)
    | ("Selection", content) => return .selection (← Stored.read? content)
    | _ => none

instance : Stored Parameter where
  write
    | .distance x => tagged "Distance" (.ofNumber x)
    | .angle x => tagged "Angle" (.ofNumber x)
    | .position p => tagged "Position" (Stored.write p)
  read? d := do
    match ← d.alternative? with
    | ("Distance", content) => return .distance (← content.number?)
    | ("Angle", content) => return .angle (← content.number?)
    | ("Position", content) => return .position (← Stored.read? content)
    | _ => none

/-! ### Rules -/

/-- The stored name of a rule. -/
def MergeRule.tag : MergeRule → String
  | .pointRigid => "PointCluster"
  | .rigidRigid => "ClusterCluster"
  | .threeRigids => "ClusterClusterCluster"
  | .rigidsAngleBetween => "ClusterHedgehogCluster"
  | .rigidsAngleBeside => "ClusterClusterHedgehog"
  | .rigidAbsorbs => "AbsorbHedgehog"
  | .balloonAbsorbs => "BalloonAbsorbHedgehog"
  | .hedgehogs => "HedgehogHedgehog"
  | .hedgehogsToBalloon => "HedgehogsToBalloon"
  | .balloons => "BalloonBalloon"
  | .balloonRigid => "BalloonRigid"
  | .deriveHedgehog => "DeriveHedgehog"

instance : Stored MergeRule where
  write r := .text r.tag
  read? := named? MergeRule.all MergeRule.tag

end PlanarSketch
