/-
The rules by which clusters are merged.
-/
namespace PlanarSketch

/-- Why clusters were merged, or a hedgehog derived. -/
inductive MergeRule where
  /-- A single point joins a rigid that contains it. -/
  | pointRigid
  /-- Two rigids share at least two points. -/
  | rigidRigid
  /-- Three rigids share a point pairwise. -/
  | threeRigids
  /-- Two rigids share a point, and the angle at that point is known. -/
  | rigidsAngleBetween
  /-- Two rigids share a point, and an angle at another point is known. -/
  | rigidsAngleBeside
  /-- A rigid covers a hedgehog. -/
  | rigidAbsorbs
  /-- A balloon covers a hedgehog. -/
  | balloonAbsorbs
  /-- Two hedgehogs have the same centre. -/
  | hedgehogs
  /-- Two hedgehogs see each other's centre and a common point. -/
  | hedgehogsToBalloon
  /-- Two balloons share at least two points. -/
  | balloons
  /-- A balloon and a rigid share at least two points. -/
  | balloonRigid
  /-- Part of what a cluster knows, as a hedgehog of its own; the cluster stays in use. -/
  | deriveHedgehog
deriving DecidableEq

namespace MergeRule

/-- The name of a rule in texts. -/
def name : MergeRule → String
  | .pointRigid => "merge_pc"
  | .rigidRigid => "merge_cc"
  | .threeRigids => "merge_ccc"
  | .rigidsAngleBetween => "merge_chc"
  | .rigidsAngleBeside => "merge_cch"
  | .rigidAbsorbs => "merge_ch"
  | .balloonAbsorbs => "merge_bh"
  | .hedgehogs => "merge_hh"
  | .hedgehogsToBalloon => "merge_hhb"
  | .balloons => "merge_bb"
  | .balloonRigid => "merge_br"
  | .deriveHedgehog => "derive_hog"

/-- Every rule. -/
def all : List MergeRule :=
  [.pointRigid, .rigidRigid, .threeRigids, .rigidsAngleBetween, .rigidsAngleBeside, .rigidAbsorbs,
    .balloonAbsorbs, .hedgehogs, .hedgehogsToBalloon, .balloons, .balloonRigid, .deriveHedgehog]

/-- Whether the rule only derives a hedgehog. -/
def isDerivation (r : MergeRule) : Bool := r = .deriveHedgehog

end MergeRule

end PlanarSketch
