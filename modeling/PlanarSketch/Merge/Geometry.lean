/-
What a merge does with positions.

A merge is given one configuration per input cluster and lists every
configuration of its output.  Most merges move all inputs onto a base; the
merges of three clusters construct a triangle first.

Main definitions:
* `TriangleData`: which triangle is constructed, and from which inputs;
* `MergeGeometry`: the ways to compute an output;
* `MergeGeometry.evaluate`: the computation;
* `mergeMethod`: a merge as a method over candidates.
-/
import PlanarSketch.Construction
import PlanarSketch.Dataflow.Candidates
import PlanarSketch.Merge.Rule
import PlanarSketch.Selection.Selector

namespace PlanarSketch

/-- A triangle and the places of its measures in the list of inputs. -/
inductive TriangleData where
  /-- Three sides; `pq` is the place of the input that holds the side from `p` to `q`. -/
  | sides (p q r : PointName) (pq qr rp : Nat)
  /-- Two sides and the angle at `b` between them. -/
  | sidesAndAngle (a b c : PointName) (ab hog bc : Nat)
  /-- The angle at `a`, the side from `a` to `b` and the side from `b` to `c`. -/
  | angleAndSides (a b c : PointName) (ab hog bc : Nat)
  /-- The angles at `a` and at `b`, with a unit side between them. -/
  | angles (a b c : PointName) (hogA hogB : Nat)
deriving DecidableEq

/-- How a merge computes the configurations of its output. -/
inductive MergeGeometry where
  /-- The input at a place, unchanged. -/
  | keep (input : Nat)
  /-- All inputs, moved rigidly onto the one at a place. -/
  | rigid (base : Nat)
  /-- All inputs, moved and scaled onto the one at a place. -/
  | scaled (base : Nat)
  /-- A triangle, moved onto the base if there is one, and the further rigids moved onto that. -/
  | triangle (data : TriangleData) (base : Option Nat) (rigids : List Nat)
  /-- Part of the only input, every arm brought to unit length. -/
  | hedgehog (centre : PointName) (arms : NameSet)
deriving DecidableEq

namespace MergeGeometry

/-- The input at a place. -/
def input (rule : MergeRule) (inputs : List Configuration) (i : Nat) :
    Except MethodError Configuration :=
  match inputs[i]? with
  | some c => .ok c
  | none => .error (.inputCount rule.name (i + 1) inputs.length)

/-- The position of a point that has to be there. -/
def position (rule : MergeRule) (c : Configuration) (v : PointName) : Except MethodError Vec :=
  match c.position? v with
  | some p => .ok p
  | none => .error (.missingPoint rule.name v)

/-- The distance of two points; the second one is missed first. -/
def distance (rule : MergeRule) (c : Configuration) (a b : PointName) :
    Except MethodError Float := do
  let q ← position rule c b
  let p ← position rule c a
  return (q - p).norm

/-- The angle at `b` from `a` to `c`. -/
def angle (rule : MergeRule) (conf : Configuration) (a b c : PointName) :
    Except MethodError Float := do
  let p ← position rule conf a
  let q ← position rule conf b
  let r ← position rule conf c
  return Vec.angleAt p q r

/-- The triangles that the inputs determine. -/
def solveTriangle (rule : MergeRule) (inputs : List Configuration) :
    TriangleData → Except MethodError (List Configuration)
  | .sides p q r pq qr rp => do
    let dpq ← distance rule (← input rule inputs pq) p q
    let dqr ← distance rule (← input rule inputs qr) q r
    let drp ← distance rule (← input rule inputs rp) r p
    return Construction.threeSides p q r dpq dqr drp
  | .sidesAndAngle a b c ab hog bc => do
    let dab ← distance rule (← input rule inputs ab) a b
    let turn ← angle rule (← input rule inputs hog) a b c
    let dbc ← distance rule (← input rule inputs bc) b c
    return Construction.sidesAndAngle a b c dab turn dbc
  | .angleAndSides a b c ab hog bc => do
    let turn ← angle rule (← input rule inputs hog) b a c
    let dab ← distance rule (← input rule inputs ab) a b
    let dbc ← distance rule (← input rule inputs bc) b c
    return Construction.angleAndSides a b c turn dab dbc
  | .angles a b c hogA hogB => do
    let turnA ← angle rule (← input rule inputs hogA) b a c
    let turnB ← angle rule (← input rule inputs hogB) a b c
    return Construction.angles a b c turnA 1.0 turnB

/-- The union of all inputs, starting from the one at `base`. -/
def unite (combine : Configuration → Configuration → Configuration) (rule : MergeRule)
    (inputs : List Configuration) (base : Nat) : Except MethodError Configuration := do
  let start ← input rule inputs base
  return (inputs.eraseIdx base).foldl combine start

/-- A triangle in the frame of the base. -/
def onBase (rule : MergeRule) (inputs : List Configuration) (base : Option Nat)
    (solution : Configuration) : Except MethodError Configuration :=
  match base with
  | none => .ok solution
  | some b => do
    let c ← input rule inputs b
    return c.merge solution

/-- Moves further inputs onto a configuration. -/
def attach (rule : MergeRule) (inputs : List Configuration) (start : Configuration)
    (places : List Nat) : Except MethodError Configuration :=
  places.foldlM (fun c i => do return c.merge (← input rule inputs i)) start

/-- A point at unit distance from the centre in the direction of an arm; an arm without a direction
stays where it is. -/
def unitArm (centre arm : Vec) : Vec :=
  let offset := arm - centre
  let norm := offset.norm
  let unit := if Tolerance.standard.nearZero norm then offset else offset / norm
  centre + unit

/-- The centre and the arms at unit distance from it. -/
def solveHedgehog (rule : MergeRule) (conf : Configuration) (centre : PointName) (arms : NameSet) :
    Except MethodError Configuration := do
  let c ← position rule conf centre
  let tips ← arms.toList.mapM fun v => do
    let p ← position rule conf v
    return (v, unitArm c p)
  return { Configuration.ofList ((centre, c) :: tips) with
    underconstrained := conf.underconstrained }

/-- Every configuration of the output for one configuration per input. -/
def evaluate (rule : MergeRule) (inputs : List Configuration) :
    MergeGeometry → Except MethodError (List Configuration)
  | .keep i => do return [← input rule inputs i]
  | .rigid base => do return [← unite Configuration.merge rule inputs base]
  | .scaled base => do return [← unite Configuration.mergeScaled rule inputs base]
  | .triangle data base rigids => do
    let solutions ← solveTriangle rule inputs data
    solutions.mapM fun solution => do
      let placed ← onBase rule inputs base solution
      attach rule inputs placed (rigids.filter fun i => some i ≠ base)
  | .hedgehog centre arms => do
    let conf ← input rule inputs 0
    return [← solveHedgehog rule conf centre arms]

end MergeGeometry

/-- Two configurations count as the same candidate if they are congruent. -/
instance : BEq Configuration := ⟨Configuration.congruent⟩

/-- A merge as a method on single configurations. -/
def mergeMethod (rule : MergeRule) (geometry : MergeGeometry) : MultiMethod Configuration where
  name := rule.name
  run := fun inputs => geometry.evaluate rule inputs

/-- A selector as a method: candidates and prototypes to the chosen candidates. -/
def selectMethod (name : String) (s : Selector) : Method (List Configuration) where
  name := name
  run
    | [candidates, prototypes] => .ok [s.select candidates prototypes.head?]
    | inputs => .error (.inputCount name 2 inputs.length)

end PlanarSketch
