/-
The elementary relations that a cluster implies.

A relation is a distance of two points or an angle of three.  A cluster is
worth the relations that it implies, and the intersection of two clusters is
the strongest cluster that both imply.

Main definitions:
* `Relation` in canonical order;
* `Cluster.implies`, `Cluster.relations`: a test and an enumeration;
* `Cluster.relationCount`: the number of relations that make up a cluster;
* `Cluster.intersection`: the common knowledge of two clusters.
-/
import PlanarSketch.Cluster.Basic
import PlanarSketch.Collection.Pairs

namespace PlanarSketch

/-- The distance of two points. -/
structure Distance where
  a : PointName
  b : PointName
deriving DecidableEq

/-- The angle at `vertex` between two points. -/
structure Angle where
  a : PointName
  vertex : PointName
  c : PointName
deriving DecidableEq

/-- The distance of two points in either order. -/
def Distance.between (a b : PointName) : Distance := if a ≤ b then ⟨a, b⟩ else ⟨b, a⟩

/-- The angle at a vertex between two points in either order. -/
def Angle.between (a vertex c : PointName) : Angle :=
  if a ≤ c then ⟨a, vertex, c⟩ else ⟨c, vertex, a⟩

/-- An elementary piece of geometric knowledge. -/
inductive Relation where
  | distance (d : Distance)
  | angle (a : Angle)
deriving DecidableEq

namespace Cluster

/-- Whether the cluster determines the relation. -/
def implies : Cluster → Relation → Bool
  | .rigid p, .distance d => p.contains d.a && p.contains d.b
  | .rigid p, .angle a => p.contains a.vertex && (p.contains a.a && p.contains a.c)
  | .balloon p, .angle a => p.contains a.vertex && (p.contains a.a && p.contains a.c)
  | .hedgehog c arms, .angle a => a.vertex = c && (arms.contains a.a && arms.contains a.c)
  | .balloon _, .distance _ => false
  | .hedgehog _ _, .distance _ => false

/-- The angles at a vertex between all pairs of outer points. -/
def anglesAt (vertex : PointName) (outer : List PointName) : List Relation :=
  (pairs outer).map fun p => .angle (.between p.1 vertex p.2)

/-- The angles at every point between all pairs of the others. -/
def anglesAmong (points : NameSet) : List Relation :=
  points.toList.flatMap fun v => anglesAt v (points.erase v).toList

/-- The distances of all pairs. -/
def distancesAmong (points : NameSet) : List Relation :=
  (pairs points.toList).map fun p => .distance (.between p.1 p.2)

/-- Every relation between distinct points that the cluster implies: distances first, then the
angles vertex by vertex. -/
def relations : Cluster → List Relation
  | .rigid p => distancesAmong p ++ anglesAmong p
  | .balloon p => anglesAmong p
  | .hedgehog c arms => anglesAt c arms.toList

/-- The number of ways to choose three of `n`. -/
def chooseThree (n : Nat) : Nat := if n < 3 then 0 else n * (n - 1) * (n - 2) / 6

/-- The number of elementary constraints that a cluster stands for. -/
def relationCount : Cluster → Nat
  | .rigid p => p.size * (p.size - 1) / 2
  | .balloon p => 3 * chooseThree p.size
  | .hedgehog _ arms => arms.size * (arms.size - 1) / 2

/-- The hedgehog with the given arms, if there are enough. -/
def hedgehogOn (centre : PointName) (arms : NameSet) : Option Cluster :=
  if 2 ≤ arms.size then some (.hedgehog centre arms) else none

/-- The hedgehog at `centre` restricted to what the other cluster covers. -/
def hedgehogWithin (centre : PointName) (arms : NameSet) (cover : Cluster) : Option Cluster :=
  if centre ∈ cover then hedgehogOn centre (arms.filter fun v => v ∈ cover) else none

/-- The balloon on the common points, if there are enough. -/
def balloonOn (points : NameSet) : Option Cluster :=
  if 3 ≤ points.size then some (.balloon points) else none

/-- The strongest cluster implied by what both clusters know. -/
def intersection : Cluster → Cluster → Option Cluster
  | .rigid p, .rigid q =>
    let common := shared (.rigid p) (.rigid q)
    if 2 ≤ common.size then some (.rigid common) else none
  | .hedgehog c₁ arms₁, .hedgehog c₂ arms₂ =>
    if c₁ = c₂ then hedgehogOn c₁ (arms₁ ∩ arms₂) else none
  | .hedgehog c arms, d => hedgehogWithin c arms d
  | d, .hedgehog c arms => hedgehogWithin c arms d
  | c, d => balloonOn (c.shared d)

end Cluster

end PlanarSketch
