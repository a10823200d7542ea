/-
The search for merges.

A search looks at one top-level cluster and its neighbours and finds the first
merge that applies, without changing anything.  Rules are tried in a fixed
order, neighbours in the order of their shared points and of their age.

Main definitions:
* `Plan`: a merge that has been found but not carried out;
* `Decomposition.searchRigid`, `searchHedgehog`, `searchBalloon`: the rules for
  each kind of cluster;
* `Decomposition.search`: the search for one cluster;
* `Decomposition.Saturated`: no top-level cluster can be merged.
-/
import PlanarSketch.Decomposition.Provenance

namespace PlanarSketch

/-- A cluster with its key. -/
structure Placed where
  id : ClusterId
  cluster : Cluster

/-- A hedgehog with its key. -/
structure PlacedHedgehog where
  id : ClusterId
  centre : PointName
  arms : NameSet

/-- An input of a planned merge. -/
inductive PlanInput where
  /-- A cluster as it is. -/
  | existing (id : ClusterId)
  /-- A hedgehog that has yet to be derived from a cluster. -/
  | derived (source : ClusterId) (centre : PointName) (arms : NameSet)
deriving DecidableEq

/-- A merge that has been found but not carried out.  It will consume all its inputs. -/
structure Plan where
  rule : MergeRule
  inputs : List PlanInput
  output : Cluster
  /-- The inputs share a relation. -/
  redundant : Bool
  geometry : MergeGeometry
  prototypeConstraints : List SelectionConstraint
deriving DecidableEq

namespace Decomposition

/-! ### Neighbours -/

/-- The top-level clusters that share a point with a given one. -/
def neighbours (d : Decomposition) (me : Placed) : List Placed :=
  let ids := me.cluster.points.toList.flatMap fun v =>
    (d.clustersWith v).filter fun id => id ≠ me.id && d.isTopLevel id
  (OrderedSet.ofList ids).toList.filterMap fun id => (d.cluster? id).map fun c => ⟨id, c⟩

/-- The top-level hedgehogs with a given centre, oldest first. -/
def hedgehogsAt (d : Decomposition) (centre : PointName) : List PlacedHedgehog :=
  d.clusters.entries.filterMap fun e =>
    match e.2.cluster with
    | .hedgehog c arms => if c = centre && d.isTopLevel e.1 then some ⟨e.1, c, arms⟩ else none
    | _ => none

/-- Whether a top-level rigid or balloon has all the points. -/
def covered (d : Decomposition) (points : NameSet) : Bool :=
  d.topLevel.toList.any fun id =>
    (d.cluster? id).any fun c => c.kind ≠ .hedgehog && c.containsAll points.toList

/-- The place of the first rigid that holds the root, or the first place. -/
def rootPlace (d : Decomposition) (inputs : List Placed) : Nat :=
  (inputs.findIdx? fun p => d.holdsRoot p.id && p.cluster.isRigid).getD 0

/-- The hedgehog itself if it has just these arms, else one derived from it. -/
def withArms (h : PlacedHedgehog) (arms : NameSet) : PlanInput :=
  if h.arms = arms then .existing h.id else .derived h.id h.centre arms

/-! ### Rules for two clusters -/

/-- A rigid or a balloon absorbs a hedgehog that it covers, unless the hedgehog was computed from
it. -/
def absorb? (d : Decomposition) (cover hog : Placed) : Option Plan :=
  if hog.cluster.kind = .hedgehog && cover.cluster.kind ≠ .hedgehog
      && hog.cluster.points ⊆ cover.cluster.points && !d.dependsOn hog.id cover.id then
    some
      { rule := if cover.cluster.isRigid then .rigidAbsorbs else .balloonAbsorbs
        inputs := [.existing cover.id, .existing hog.id]
        output := cover.cluster
        redundant := true
        geometry := .keep 0
        prototypeConstraints := [] }
  else none

/-- A balloon takes the size of a rigid with which it shares two points. -/
def balloonRigid? (balloon rigid : Placed) : Option Plan :=
  let common := (balloon.cluster.shared rigid.cluster).size
  if balloon.cluster.kind = .balloon && rigid.cluster.isRigid && 2 ≤ common then
    some
      { rule := .balloonRigid
        inputs := [.existing balloon.id, .existing rigid.id]
        output := .rigid (balloon.cluster.points ∪ rigid.cluster.points)
        redundant := 3 ≤ common
        geometry := .scaled 1
        prototypeConstraints := [] }
  else none

/-- A lone point joins a rigid.  If only the point holds the root, the rigid moves to the point. -/
def joinPoint (d : Decomposition) (rigid point : Placed) : Plan where
  rule := .pointRigid
  inputs := [.existing rigid.id, .existing point.id]
  output := rigid.cluster
  redundant := false
  geometry := if d.holdsRoot point.id && !d.holdsRoot rigid.id then .rigid 1 else .keep 0
  prototypeConstraints := []

/-- Of two rigids that share a point, one may be a lone point. -/
def pointRigid? (d : Decomposition) (me other : Placed) : Option Plan :=
  if !other.cluster.isRigid then none
  else if me.cluster.size = 1 then some (d.joinPoint other me)
  else if other.cluster.size = 1 then some (d.joinPoint me other)
  else none

/-- Two rigids share two points. -/
def rigidRigid? (d : Decomposition) (me other : Placed) : Option Plan :=
  if other.cluster.isRigid && 2 ≤ (me.cluster.shared other.cluster).size then
    some
      { rule := .rigidRigid
        inputs := [.existing me.id, .existing other.id]
        output := .rigid (me.cluster.points ∪ other.cluster.points)
        redundant := true
        geometry := .rigid (d.rootPlace [me, other])
        prototypeConstraints := [] }
  else none

/-- Two balloons share two points. -/
def balloons? (me other : Placed) : Option Plan :=
  let common := (me.cluster.shared other.cluster).size
  if other.cluster.kind = .balloon && 2 ≤ common then
    some
      { rule := .balloons
        inputs := [.existing me.id, .existing other.id]
        output := .balloon (me.cluster.points ∪ other.cluster.points)
        redundant := 3 ≤ common
        geometry := .scaled 0
        prototypeConstraints := [] }
  else none

/-- The union of two hedgehogs with one centre that share an arm. -/
def joinHedgehogs (centre : PointName) (first second : PlanInput) (arms₁ arms₂ : NameSet) :
    Plan where
  rule := .hedgehogs
  inputs := [first, second]
  output := .hedgehog centre (arms₁ ∪ arms₂)
  redundant := 2 ≤ (arms₁ ∩ arms₂).size
  geometry := .scaled 0
  prototypeConstraints := []

/-- Two hedgehogs have the same centre and share an arm. -/
def hedgehogs? (me : PlacedHedgehog) (other : Placed) : Option Plan :=
  match other.cluster with
  | .hedgehog centre arms =>
    if centre = me.centre && (me.arms ∩ arms).size ≠ 0 then
      some (joinHedgehogs me.centre (.existing me.id) (.existing other.id) me.arms arms)
    else none
  | _ => none

/-- A hedgehog grows by the angles that another cluster knows at its centre, unless it was computed
from that cluster. -/
def extendHedgehog? (d : Decomposition) (source : Placed) (hog : PlacedHedgehog) : Option Plan :=
  let seen := source.cluster.points.erase hog.centre
  if seen.size < 2 || seen.Disjoint hog.arms || seen ⊆ hog.arms
      || d.dependsOn hog.id source.id then none
  else
    some (joinHedgehogs hog.centre (.existing hog.id) (.derived source.id hog.centre seen)
      hog.arms seen)

/-- The first top-level hedgehog centred in a cluster that grows by it. -/
def extendHedgehogs? (d : Decomposition) (source : Placed) : Option Plan :=
  source.cluster.points.toList.findSome? fun v =>
    (d.hedgehogsAt v).findSome? (d.extendHedgehog? source)

/-! ### Rules that construct a triangle -/

/-- Three rigids pairwise share one point, three distinct ones in all. -/
def threeRigids? (d : Decomposition) (me first second : Placed) : Option Plan :=
  if !first.cluster.isRigid || !second.cluster.isRigid || second.id = first.id then none
  else
    match (me.cluster.shared first.cluster).only?, (first.cluster.shared second.cluster).only?,
        (second.cluster.shared me.cluster).only? with
    | some p, some q, some r =>
      if p = q || q = r || r = p then none
      else
        some
          { rule := .threeRigids
            inputs := [.existing me.id, .existing first.id, .existing second.id]
            output := .rigid (me.cluster.points ∪ first.cluster.points ∪ second.cluster.points)
            redundant := false
            geometry :=
              .triangle (.sides p q r 1 2 0) (some (d.rootPlace [me, first, second])) [0, 1, 2]
            prototypeConstraints := [⟨.notClockwise, p, q, r⟩, ⟨.notCounterClockwise, p, q, r⟩] }
    | _, _, _ => none

/-- The merge of two rigids along a triangle whose angle a hedgehog gives. -/
def joinByAngle (d : Decomposition) (rule : MergeRule) (r n : Placed) (hog : PlanInput)
    (data : TriangleData) (prototypeConstraints : List SelectionConstraint) : Plan where
  rule := rule
  inputs := [.existing r.id, .existing n.id, hog]
  output := .rigid (r.cluster.points ∪ n.cluster.points)
  redundant := false
  geometry := .triangle data (some (d.rootPlace [r, n])) [0, 1]
  prototypeConstraints := prototypeConstraints

/-- The first arm that is in one cluster and not in another. -/
def armTo? (arms : NameSet) (inside outside : Cluster) : Option PointName :=
  arms.toList.find? fun v => v ∈ inside && v ∉ outside

/-- Two rigids share the point `b`, and a hedgehog at `b` spans both. -/
def angleBetween? (d : Decomposition) (r n : Placed) (b : PointName) : Option Plan :=
  (d.hedgehogsAt b).findSome? fun h =>
    match armTo? h.arms r.cluster n.cluster, armTo? h.arms n.cluster r.cluster with
    | some a, some c =>
      some (d.joinByAngle .rigidsAngleBetween r n (withArms h (.ofList [a, c]))
        (.sidesAndAngle a b c 0 2 1) [])
    | _, _ => none

/-- A hedgehog centred in `near` sees the shared point `b` and a point of `far`.  The places of
the two rigids in the list of inputs are given. -/
def angleBesideAt? (d : Decomposition) (r n : Placed) (b : PointName) (near far : Cluster)
    (nearPlace farPlace : Nat) : Option Plan :=
  near.points.toList.findSome? fun a =>
    if a = b then none
    else
      (d.hedgehogsAt a).findSome? fun h =>
        if b ∉ h.arms then none
        else
          (armTo? h.arms far near).map fun c =>
            d.joinByAngle .rigidsAngleBeside r n (withArms h (.ofList [b, c]))
              (.angleAndSides a b c nearPlace 2 farPlace)
              [⟨.notAcute, a, c, b⟩, ⟨.notObtuse, a, c, b⟩]

/-- Two rigids share the point `b`, and a hedgehog centred in one of them sees `b` and the other. -/
def angleBeside? (d : Decomposition) (r n : Placed) (b : PointName) : Option Plan :=
  d.angleBesideAt? r n b r.cluster n.cluster 0 1 <|> d.angleBesideAt? r n b n.cluster r.cluster 1 0

/-- Two rigids share exactly one point, and some hedgehog gives an angle between them. -/
def rigidsByAngle? (d : Decomposition) (r n : Placed) : Option Plan :=
  match (r.cluster.shared n.cluster).only? with
  | some b => d.angleBetween? r n b <|> d.angleBeside? r n b
  | none => none

/-- Two hedgehogs see each other's centre and a common point, and nothing covers the triangle. -/
def triangleOver? (d : Decomposition) (me other : PlacedHedgehog) (c : PointName) : Option Plan :=
  let triangle := NameSet.ofList [me.centre, other.centre, c]
  if d.covered triangle then none
  else
    some
      { rule := .hedgehogsToBalloon
        inputs := [withArms me (.ofList [other.centre, c]), withArms other (.ofList [me.centre, c])]
        output := .balloon triangle
        redundant := false
        geometry := .triangle (.angles me.centre other.centre c 0 1) none []
        prototypeConstraints := [] }

/-- The first triangle that a hedgehog spans with another one. -/
def hedgehogsToBalloon? (d : Decomposition) (me : PlacedHedgehog) : Option Plan :=
  me.arms.toList.findSome? fun b =>
    (d.hedgehogsAt b).findSome? fun other =>
      if me.centre ∉ other.arms then none
      else (me.arms ∩ other.arms).toList.findSome? (d.triangleOver? me other)

/-! ### Searches by kind -/

/-- The first merge of a rigid. -/
def searchRigid (d : Decomposition) (me : Placed) : Option Plan :=
  let near := d.neighbours me
  near.findSome? (d.absorb? me)
    <|> near.findSome? (fun n => balloonRigid? n me)
    <|> near.findSome? (d.pointRigid? me)
    <|> near.findSome? (d.rigidRigid? me)
    <|> near.findSome? (fun n₁ => near.findSome? (d.threeRigids? me n₁))
    <|> near.findSome? (fun n => if n.cluster.isRigid then d.rigidsByAngle? me n else none)
    <|> d.extendHedgehogs? me

/-- The first merge of a hedgehog. -/
def searchHedgehog (d : Decomposition) (me : PlacedHedgehog) : Option Plan :=
  let whole : Placed := ⟨me.id, .hedgehog me.centre me.arms⟩
  let near := d.neighbours whole
  let rigids := near.filter fun n => n.cluster.isRigid && 1 < n.cluster.size
  near.findSome? (fun n => d.absorb? n whole)
    <|> near.findSome? (hedgehogs? me)
    <|> (pairs rigids).findSome? (fun p => d.rigidsByAngle? p.1 p.2)
    <|> d.hedgehogsToBalloon? me
    <|> near.findSome? (fun n =>
      if n.cluster.kind ≠ .hedgehog && me.centre ∈ n.cluster then d.extendHedgehog? n me else none)

/-- The first merge of a balloon. -/
def searchBalloon (d : Decomposition) (me : Placed) : Option Plan :=
  let near := d.neighbours me
  near.findSome? (d.absorb? me)
    <|> near.findSome? (balloons? me)
    <|> near.findSome? (balloonRigid? me)
    <|> d.extendHedgehogs? me

/-- The first merge of a cluster. -/
def search (d : Decomposition) (id : ClusterId) : Option Plan :=
  match d.cluster? id with
  | some (.rigid points) => d.searchRigid ⟨id, .rigid points⟩
  | some (.hedgehog centre arms) => d.searchHedgehog ⟨id, centre, arms⟩
  | some (.balloon points) => d.searchBalloon ⟨id, .balloon points⟩
  | none => none

/-- No top-level cluster can be merged. -/
def Saturated (d : Decomposition) : Prop := ∀ id ∈ d.topLevel, d.search id = none

end Decomposition

end PlanarSketch
