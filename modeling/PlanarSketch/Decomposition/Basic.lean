/-
Decompositions: clusters, the merges between them, and the frontier.

Every cluster was either added from outside or is the output of one merge.  A
merge takes the clusters that it consumes off the top level and puts its
output there, so the top level is what is known at the moment, and the merges
below it say why.

Clusters and merges carry serial numbers.  A merge is younger than its inputs
and older than everything made from its output, so age is an order of
dependency.

What depends on what is also drawn as a graph, the chart, in which every
cluster, point and merge hangs under the listings that it belongs to.

Main definitions:
* `ClusterNode`, `Merge`, `Decomposition`;
* `Chart`: the graph of clusters, points, merges and listings;
* `Decomposition.consumers`, `determining?`, `clustersWith`: the look-ups that
  the search for merges is made of;
* `Edit`: a record of each change, for whoever keeps values beside the
  structure.
-/
import PlanarSketch.Cluster.Relation
import PlanarSketch.Collection.OrderedSet
import PlanarSketch.Collection.Registry
import PlanarSketch.Graph.Basic
import PlanarSketch.Merge.Geometry

namespace PlanarSketch

/-- A cluster in use. -/
structure ClusterNode where
  cluster : Cluster
  /-- The cluster was computed from information that contradicts itself or says a thing twice. -/
  overconstrained : Bool
  /-- The cluster keeps the coordinates of the root. -/
  holdsRoot : Bool
deriving DecidableEq

/-- The key of a cluster. -/
abbrev ClusterId := Key ClusterNode

/-- A merge in use. -/
structure Merge where
  rule : MergeRule
  /-- The clusters whose configurations the merge reads, in the order in which it reads them. -/
  inputs : List ClusterId
  /-- The inputs that the merge took off the top level. -/
  consumed : List ClusterId
  output : ClusterId
  /-- What two inputs both imply stems from the same clusters. -/
  consistent : Bool
  /-- The inputs say a thing twice and independently. -/
  overconstrained : Bool
  geometry : MergeGeometry
  /-- Questions that choose between mirror images by the prototype. -/
  prototypeConstraints : List SelectionConstraint
deriving DecidableEq

/-- The key of a merge. -/
abbrev MergeId := Key Merge

/-! ### The chart -/

/-- A listing of clusters, points or merges. -/
inductive Listing where
  | root
  | topLevel
  | points
  | rigids
  | hedgehogs
  | balloons
  | merges
deriving DecidableEq

namespace Listing

/-- All listings. -/
def all : List Listing := [.root, .topLevel, .points, .rigids, .hedgehogs, .balloons, .merges]

/-- The listing of the clusters of a kind. -/
def ofKind : ClusterKind → Listing
  | .rigid => .rigids
  | .hedgehog => .hedgehogs
  | .balloon => .balloons

end Listing

/-- A vertex of a chart. -/
inductive Vertex where
  | listing (l : Listing)
  | point (v : PointName)
  | cluster (id : ClusterId)
  | merge (k : MergeId)
deriving DecidableEq

/-- What an edge of a chart says. -/
inductive EdgeTag where
  /-- A merge reads a cluster, or it computes one. -/
  | dependency
  /-- A listing contains something, or a cluster has a point. -/
  | contains
  /-- A merge keeps a cluster off the top level. -/
  | neededBy
deriving DecidableEq

/-- The graph of clusters, points, merges and listings. -/
abbrev Chart := Graph Vertex EdgeTag

namespace Chart

/-- The chart with nothing but the listings. -/
def bare : Chart := Listing.all.foldl (fun g l => g.addVertex (.listing l)) .empty

/-- Lists something. -/
def list (g : Chart) (l : Listing) (v : Vertex) : Chart := g.addEdge (.listing l) v .contains

/-- Gives a cluster a point, which is listed if it is new. -/
def drawPoint (id : ClusterId) (g : Chart) (v : PointName) : Chart :=
  let listed := if g.hasVertex (.point v) then g else g.list .points (.point v)
  listed.addEdge (.cluster id) (.point v) .contains

/-- Where a new cluster is listed. -/
def listings (n : ClusterNode) : List Listing :=
  [.ofKind n.cluster.kind, .topLevel] ++ if n.holdsRoot then [.root] else []

/-- Draws a new cluster. -/
def drawCluster (g : Chart) (id : ClusterId) (n : ClusterNode) : Chart :=
  let listed := (listings n).foldl (fun g l => g.list l (.cluster id)) g
  n.cluster.points.toList.foldl (drawPoint id) listed

/-- Draws a new merge and takes what it consumes off the top level. -/
def drawMerge (g : Chart) (k : MergeId) (m : Merge) : Chart :=
  let listed := g.list .merges (.merge k)
  let reads := m.inputs.foldl (fun g id => g.addEdge (.cluster id) (.merge k) .dependency) listed
  let writes := reads.addEdge (.merge k) (.cluster m.output) .dependency
  let needs := m.consumed.foldl (fun g id => g.addEdge (.merge k) (.cluster id) .neededBy) writes
  m.consumed.foldl (fun g id => g.removeEdge (.listing .topLevel) (.cluster id)) needs

end Chart

/-- One change of the clusters or merges. -/
inductive Edit where
  | clusterAdded (id : ClusterId)
  | mergeAdded (id : MergeId)
  | mergeRemoved (id : MergeId)
  | clusterRemoved (id : ClusterId)
deriving DecidableEq

/-! ### Decompositions -/

/-- Clusters, the merges between them, and the frontier. -/
structure Decomposition where
  clusters : Registry ClusterNode
  merges : Registry Merge
  /-- What is listed where and what depends on what. -/
  chart : Chart
  /-- The frontier, in the order in which clusters came to it. -/
  topLevel : OrderedSet ClusterId
  /-- The points of all clusters, in the order in which they came into use. -/
  points : OrderedSet PointName
  /-- The rigid whose coordinates merges keep. -/
  root : Option ClusterId
  /-- The clusters still to be searched. -/
  worklist : List ClusterId
  /-- The changes since somebody last asked, oldest first. -/
  journal : List Edit

namespace Decomposition

/-- The decomposition without clusters. -/
def empty : Decomposition := ⟨.empty, .empty, .bare, .empty, .empty, none, [], []⟩

instance : Inhabited Decomposition := ⟨empty⟩

/-! ### Look-ups -/

/-- The cluster under a key. -/
def cluster? (d : Decomposition) (id : ClusterId) : Option Cluster :=
  (d.clusters.find? id).map ClusterNode.cluster

/-- Whether a cluster is on the top level. -/
def isTopLevel (d : Decomposition) (id : ClusterId) : Bool := d.topLevel.contains id

/-- Whether a cluster is marked as overconstrained. -/
def isOverconstrained (d : Decomposition) (id : ClusterId) : Bool :=
  ((d.clusters.find? id).map ClusterNode.overconstrained).getD false

/-- Whether a cluster is marked as holding the root. -/
def holdsRoot (d : Decomposition) (id : ClusterId) : Bool :=
  ((d.clusters.find? id).map ClusterNode.holdsRoot).getD false

/-- The clusters of a kind, oldest first. -/
def ofKind (d : Decomposition) (k : ClusterKind) : List ClusterId :=
  (d.clusters.entries.filter fun e => e.2.cluster.kind = k).map Prod.fst

/-- The clusters with a given point, oldest first. -/
def clustersWith (d : Decomposition) (v : PointName) : List ClusterId :=
  (d.clusters.entries.filter fun e => v ∈ e.2.cluster).map Prod.fst

/-- The merges that read a cluster, oldest first. -/
def consumers (d : Decomposition) (id : ClusterId) : List MergeId :=
  (d.merges.entries.filter fun e => id ∈ e.2.inputs).map Prod.fst

/-- The merge that a cluster is the output of. -/
def determining? (d : Decomposition) (id : ClusterId) : Option MergeId :=
  (d.merges.entries.find? fun e => e.2.output = id).map Prod.fst

/-- Whether some merge keeps a cluster off the top level. -/
def isNeeded (d : Decomposition) (id : ClusterId) : Bool :=
  d.merges.values.any fun m => id ∈ m.consumed

/-- Whether a cluster is a derived hedgehog. -/
def isDerived (d : Decomposition) (id : ClusterId) : Bool :=
  ((d.determining? id).bind d.merges.find?).any fun m => m.rule.isDerivation

/-- The merges, youngest first. -/
def mergesByYouth (d : Decomposition) : List Merge := d.merges.values.reverse

/-! ### Journal -/

/-- Appends to the journal. -/
def record (d : Decomposition) (e : Edit) : Decomposition := { d with journal := d.journal ++ [e] }

/-- Empties the journal. -/
def withoutJournal (d : Decomposition) : Decomposition := { d with journal := [] }

end Decomposition

end PlanarSketch
