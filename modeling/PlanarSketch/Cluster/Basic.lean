/-
Clusters: sets of points with what is known about their shape.

A rigid knows every distance between its points, a hedgehog every angle at
its centre between its arms, and a balloon its shape up to a similarity.

Main definitions:
* `Cluster` with its names, size and membership;
* `Cluster.validate`: the least sizes at which a cluster says anything;
* `Cluster.text`: how a cluster is written.
-/
import PlanarSketch.Collection.NameSet

namespace PlanarSketch

/-- What a cluster knows about its points. -/
inductive ClusterKind where
  /-- Every distance. -/
  | rigid
  /-- Every angle at one centre. -/
  | hedgehog
  /-- The shape up to a similarity. -/
  | balloon
deriving DecidableEq

/-- A set of points with one kind of knowledge about them. -/
inductive Cluster where
  | rigid (points : NameSet)
  | hedgehog (centre : PointName) (arms : NameSet)
  | balloon (points : NameSet)
deriving DecidableEq

/-- Why a cluster says nothing. -/
inductive ClusterError where
  | emptyRigid
  | hedgehogTooSmall (arms : Nat)
  | centreAmongArms (centre : PointName)
  | balloonTooSmall (points : Nat)
deriving DecidableEq

/-- The wording of each error. -/
def ClusterError.message : ClusterError → String
  | .emptyRigid => "Rigid cluster needs at least one variable"
  | .hedgehogTooSmall n => "Hedgehog needs at least two outer variables, got " ++ toString n
  | .centreAmongArms c => "Hedgehog centre " ++ c ++ " is also one of its outer variables"
  | .balloonTooSmall n => "Balloon needs at least three variables, got " ++ toString n

/-- The name of a kind in texts. -/
def ClusterKind.text : ClusterKind → String
  | .rigid => "rigid"
  | .hedgehog => "hedgehog"
  | .balloon => "balloon"

namespace Cluster

/-- The kind of knowledge. -/
def kind : Cluster → ClusterKind
  | .rigid _ => .rigid
  | .hedgehog _ _ => .hedgehog
  | .balloon _ => .balloon

/-- Whether every distance is known. -/
def isRigid (c : Cluster) : Bool := c.kind = .rigid

/-- Every point, a hedgehog's centre included. -/
def points : Cluster → NameSet
  | .rigid p => p
  | .hedgehog c arms => arms.insert c
  | .balloon p => p

/-- The number of points, where a hedgehog's centre counts once more. -/
def size : Cluster → Nat
  | .rigid p => p.size
  | .hedgehog _ arms => arms.size + 1
  | .balloon p => p.size

instance : Membership PointName Cluster := ⟨fun c v => v ∈ c.points⟩

instance (c : Cluster) (v : PointName) : Decidable (v ∈ c) :=
  inferInstanceAs (Decidable (v ∈ c.points))

@[simp] theorem mem_points {c : Cluster} {v : PointName} : v ∈ c.points ↔ v ∈ c := Iff.rfl

@[simp] theorem mem_rigid {p : NameSet} {v : PointName} : v ∈ rigid p ↔ v ∈ p := Iff.rfl

@[simp] theorem mem_balloon {p : NameSet} {v : PointName} : v ∈ balloon p ↔ v ∈ p := Iff.rfl

@[simp] theorem mem_hedgehog {c v : PointName} {arms : NameSet} :
    v ∈ hedgehog c arms ↔ v = c ∨ v ∈ arms :=
  NameSet.mem_insert

/-- Every listed name is a point of the cluster. -/
def containsAll (c : Cluster) (names : List PointName) : Bool := names.all fun v => v ∈ c

/-- The points of both clusters. -/
def shared (c d : Cluster) : NameSet := c.points.filter fun v => v ∈ d

@[simp] theorem mem_shared {c d : Cluster} {v : PointName} : v ∈ c.shared d ↔ v ∈ c ∧ v ∈ d := by
  simp [shared]

/-! ### Least sizes -/

/-- Refuses a cluster that is too small to say anything.  Of a hedgehog the centre is looked at
before the arms are counted. -/
def validate : Cluster → Except ClusterError Unit
  | .rigid p => if p.isEmpty then .error .emptyRigid else .ok ()
  | .hedgehog c arms =>
    if c ∈ arms then .error (.centreAmongArms c)
    else if arms.size < 2 then .error (.hedgehogTooSmall arms.size)
    else .ok ()
  | .balloon p => if p.size < 3 then .error (.balloonTooSmall p.size) else .ok ()

/-- A cluster that passes `validate`. -/
def Valid (c : Cluster) : Prop := c.validate = .ok ()

/-- The cluster itself, if it is valid. -/
def checked (c : Cluster) : Except ClusterError Cluster := c.validate.map fun _ => c

/-- The rigid on the listed points. -/
def rigidOf (names : List PointName) : Except ClusterError Cluster :=
  (rigid (.ofList names)).checked

/-- The hedgehog with the listed arms. -/
def hedgehogOf (centre : PointName) (arms : List PointName) : Except ClusterError Cluster :=
  (hedgehog centre (.ofList arms)).checked

/-- The balloon on the listed points. -/
def balloonOf (names : List PointName) : Except ClusterError Cluster :=
  (balloon (.ofList names)).checked

/-! ### Text -/

/-- Names between braces. -/
def braced (names : NameSet) : String := "\x7b" ++ String.intercalate "," names.toList ++ "\x7d"

/-- The kind, for a hedgehog the centre, and the names in order. -/
def text : Cluster → String
  | .rigid p => "rigid#" ++ braced p
  | .balloon p => "balloon#" ++ braced p
  | .hedgehog c arms => "hedgehog#" ++ c ++ braced arms

end Cluster

end PlanarSketch
