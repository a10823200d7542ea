/-
A sketch follows its problem.

Every event of a problem changes what the problem shows in one place, and the
sketch answers it with the calls of its solver that exchange the cluster of
that place.  So after the last event the solver has been given just what the
problem shows.

* `InStep`: the solver of a sketch has been given what a figure shows;
* `InStep.addPointCluster`, … `InStep.updateParameter`: one event;
* `InStep.followConstraint_of_flaw`: the one event that a sketch cannot follow
  is an angle that names a point twice.
-/
import PlanarSketch.Proofs.Figures

namespace PlanarSketch

/-! ### Constraints with clusters of their own -/

namespace Constraint

variable {c c' : Constraint} {o : Cluster} {conf : Configuration} {x : Parameter}

/-- A distance or an angle. -/
def Measures (c : Constraint) : Prop := c.fix? = none ∧ c.selection? = none

/-- Why no cluster can stand for an angle that names a point twice. -/
def flaw? : Constraint → Option ClusterError
  | .angle a b c _ =>
    match Cluster.hedgehogOf b [a, c] with
    | .ok _ => none
    | .error e => some e
  | _ => none

theorem flaw?_angle_eq_none {a b c : PointName} {x : Float} :
    (angle a b c x).flaw? = none ↔ a ≠ b ∧ b ≠ c ∧ a ≠ c := by
  rw [← Cluster.valid_hedgehog_pair_iff, flaw?, Cluster.hedgehogOf]
  constructor
  · intro h
    by_contra hno
    obtain ⟨e, he⟩ := Cluster.checked_of_not_valid hno
    rw [he] at h
    cases h
  · intro h
    rw [Cluster.checked_of_valid h]

theorem measures_of_piece? (h : c.piece? = some (o, conf)) : c.Measures := by
  obtain ⟨a, b, x, rfl, -⟩ | ⟨a, b, p, x, rfl, -⟩ := cases_of_piece? h <;> exact ⟨rfl, rfl⟩

theorem Measures.exists_piece? (h : c.Measures) (hc : c.flaw? = none) :
    ∃ o conf, c.piece? = some (o, conf) := by
  cases c with
  | distance a b x => exact ⟨_, _, rfl⟩
  | angle a b c x => exact ⟨_, _, if_pos (flaw?_angle_eq_none.1 hc)⟩
  | fix v q => cases h.1
  | selection s => cases h.2

theorem piece?_of_flaw? {e : ClusterError} (h : c.flaw? = some e) :
    c.Measures ∧ c.piece? = none := by
  cases c with
  | angle a b c x =>
    refine ⟨⟨rfl, rfl⟩, if_neg fun hne => ?_⟩
    cases (flaw?_angle_eq_none.2 hne).symm.trans h
  | distance a b x => cases h
  | fix v q => cases h
  | selection s => cases h

/-- Another number makes no other cluster. -/
theorem exists_piece?_of_withParameter? (hx : c.withParameter? x = some c')
    (h : c'.piece? = some (o, conf)) : ∃ conf', c.piece? = some (o, conf') := by
  cases c <;> cases x <;> cases hx
  · cases h
    exact ⟨_, rfl⟩
  · obtain ⟨hne, h⟩ := Option.ite_none_right_eq_some.1 h
    cases h
    exact ⟨_, if_pos hne⟩
  · cases h

theorem flaw?_withParameter? (hx : c.withParameter? x = some c') : c'.flaw? = c.flaw? := by
  cases c <;> cases x <;> cases hx <;> rfl

end Constraint

/-- The map holds the same constraints, except for a distance or an angle. -/
structure Figure.Alters (f : Figure) (id : ConstraintId)
    (m : OrderedMap ConstraintId Constraint) : Prop where
  other : ∀ j, j ≠ id → m.find? j = f.constraints.find? j
  fixes : Figure.readings Constraint.fix? m = f.fixes
  selections : Figure.readings Constraint.selection? m = f.selections

namespace Figure

variable {f : Figure} {id : ConstraintId} {c c' : Constraint}

theorem alters_insert (hid : id ∉ f.constraints.keys) (hc : c.Measures) :
    f.Alters id (f.constraints.insert id c) where
  other _ hj := OrderedMap.find?_insert_of_ne _ _ hj.symm
  fixes := by
    rw [readings_insert hid, hc.1]
    exact List.append_nil _
  selections := by
    rw [readings_insert hid, hc.2]
    exact List.append_nil _

theorem alters_erase (hid : f.constraints.find? id = some c) (hc : c.Measures) :
    f.Alters id (f.constraints.erase id) where
  other _ hj := OrderedMap.find?_erase_of_ne _ hj.symm
  fixes := readings_erase_of_none hid hc.1
  selections := readings_erase_of_none hid hc.2

theorem alters_modify (hid : f.constraints.find? id = some c) (hc : c.Measures)
    (hc' : c'.Measures) : f.Alters id (f.constraints.modify id fun _ => c') where
  other _ hj := by rw [OrderedMap.find?_modify, if_neg hj.symm]
  fixes := readings_modify_of_none hid hc.1 hc'.1
  selections := readings_modify_of_none hid hc.2 hc'.2

end Figure

/-! ### Pieces that are exchanged -/

namespace Holding

open Solver

variable {s : Solver} {hold : Origin → Option ClusterId}
  {piece : Origin → Option (Cluster × Configuration)} {o : Origin} {n : ClusterId}
  {c : Cluster} {conf conf' : Configuration}

/-- A piece is added with its configuration. -/
theorem run_add (h : Holding hold piece s.stock) (hs : s.Healthy) (ho : piece o = none)
    (hc : c.Valid) (hconf : conf.Fits c) :
    ∃ n s₁ s₂, (Solver.add c).run.run s = (.ok n, s₁) ∧
      (Solver.assign n [conf]).run.run s₁ = (.ok (), s₂) ∧ s₂.Healthy ∧
      Holding (Function.update hold o (some n)) (Function.update piece o (some (c, conf)))
        s₂.stock ∧ s₂.given = { s.given with stock := s₂.stock } ∧
      s₂.stock n = some (c, some [conf]) := by
  obtain ⟨s₁, s₂, hadd, hassign, h₂, hnew, hgiven⟩ := hs.install hc hconf
  have hstock : s₂.stock = _ := congrArg Given.stock hgiven
  refine ⟨_, s₁, s₂, hadd, hassign, h₂, ?_, hgiven.trans (Given.ext hstock.symm rfl rfl rfl), ?_⟩
  · rw [hstock]
    exact h.add hnew c conf ho
  · rw [hstock]
    exact Function.update_self ..

/-- A piece is removed. -/
theorem run_remove (h : Holding hold piece s.stock) (hs : s.Healthy) (ho : hold o = some n) :
    ∃ s₁, (Solver.remove n).run.run s = (.ok (), s₁) ∧ s₁.Healthy ∧
      Holding (Function.update hold o none) (Function.update piece o none) s₁.stock ∧
      s₁.given = { s.given with stock := s₁.stock, root := s.given.root.filter (· ≠ n) } := by
  obtain ⟨e, -, he⟩ := h.stock_of_hold ho
  have hop : s.given.Admits (.remove n) := ⟨_, he⟩
  have hgiven := hs.given_perform hop
  have hstock : (s.perform (.remove n)).stock = _ := congrArg Given.stock hgiven
  refine ⟨_, run_of_reply (hs.reply_eq_ok hop), hs.perform hop, ?_,
    hgiven.trans (Given.ext hstock.symm rfl rfl rfl)⟩
  show Holding _ _ (s.perform (.remove n)).stock
  rw [hstock]
  exact h.remove ho

/-- A piece is given another configuration. -/
theorem run_assign (h : Holding hold piece s.stock) (hs : s.Healthy) (ho : hold o = some n)
    (hc : piece o = some (c, conf)) (hconf : conf'.Fits c) :
    ∃ s₁, (Solver.assign n [conf']).run.run s = (.ok (), s₁) ∧ s₁.Healthy ∧
      Holding hold (Function.update piece o (some (c, conf'))) s₁.stock ∧
      s₁.given = { s.given with stock := s₁.stock } := by
  obtain ⟨e, he, hheld⟩ := h.stock_of_hold ho
  obtain rfl := Option.some_inj.1 (he.symm.trans hc)
  have hop : s.given.Admits (.assign n [conf']) := ⟨c, _, hheld, by simpa using hconf⟩
  have hgiven := hs.given_perform hop
  have hstock : (s.perform (.assign n [conf'])).stock = _ := congrArg Given.stock hgiven
  refine ⟨_, run_of_reply (hs.reply_eq_ok hop), hs.perform hop, ?_,
    hgiven.trans (Given.ext hstock.symm rfl rfl rfl)⟩
  show Holding _ _ (s.perform (.assign n [conf'])).stock
  rw [hstock]
  exact h.assign ho hc conf'

/-- A call that leaves the clusters with their candidates alone. -/
theorem run_other {op : Operation} (h : Holding hold piece s.stock) (hs : s.Healthy)
    (hop : s.given.Admits op)
    (hkeep : ∀ next, (s.given.after next op).stock = s.stock) :
    (s.perform op).Healthy ∧ Holding hold piece (s.perform op).stock ∧ s.reply op = .ok () := by
  have hstock : (s.perform op).stock = _ := congrArg Given.stock (hs.given_perform hop)
  rw [hstock, hkeep]
  exact ⟨hs.perform hop, h, hs.reply_eq_ok hop⟩

end Holding

namespace Sketch

variable {s s' : Sketch} {f : Figure} {m : OrderedMap ConstraintId Constraint} {v : PointName}
  {q : Vec} {id : ConstraintId} {c c' : Constraint} {n : ClusterId} {o : Cluster}
  {conf conf' : Configuration} {x : Parameter}

/-! ### Sketches in step with a figure -/

/-- The cluster that stands for an origin. -/
def holder (s : Sketch) : Origin → Option ClusterId
  | .point v => s.points.find? v
  | .constraint id => s.clusters.find? id
  | .fixes => s.root

/-- The solver of a sketch is in order and has been given what a figure shows: the clusters, where
that of the fixed points is the root, the points as drawn, and the questions. -/
structure InStep (f : Figure) (s : Sketch) : Prop where
  healthy : s.solver.Healthy
  holding : Holding s.holder f.piece? s.solver.stock
  root : s.solver.decomposition.root = s.root
  prototypes : s.solver.prototypes = f.points
  selection : s.solver.selection.toList = f.selections
  fixed : s.fixed.entries = f.fixes

/-- A change of a sketch succeeds and puts it in step with a figure. -/
def Follows (x : SketchM Unit) (s : Sketch) (f : Figure) : Prop :=
  ∃ s', x.run.run s = (.ok (), s') ∧ InStep f s' ∧ s'.problem = s.problem ∧
    s'.listener = s.listener

/-- What has been given to the solver decides whether a sketch is in step. -/
theorem inStep_of_given {g : Solver.Given} (hs : s.solver.Healthy) (hg : s.solver.given = g)
    (hh : Holding s.holder f.piece? s.solver.stock) (hroot : g.root = s.root)
    (hprototypes : g.prototypes = f.points) (hselection : g.selection.toList = f.selections)
    (hfixed : s.fixed.entries = f.fixes) : InStep f s := by
  subst hg
  exact ⟨hs, hh, hroot, hprototypes, hselection, hfixed⟩

/-- Another entry for a point changes what stands for it. -/
theorem holder_points {r : Option ClusterId} {clusters : OrderedMap PointName ClusterId}
    (h : ∀ w, clusters.find? w = if v = w then r else s.points.find? w) :
    ({ s with points := clusters } : Sketch).holder = Function.update s.holder (.point v) r := by
  funext o
  rw [Function.update_apply]
  cases o with
  | point w => exact (h w).trans (if_congr (by rw [Origin.point.injEq, eq_comm]) rfl rfl)
  | constraint id => exact (if_neg nofun).symm
  | fixes => exact (if_neg nofun).symm

/-- Another entry for a constraint changes what stands for it. -/
theorem holder_clusters {r : Option ClusterId} {clusters : OrderedMap ConstraintId ClusterId}
    (h : ∀ j, clusters.find? j = if id = j then r else s.clusters.find? j) :
    ({ s with clusters := clusters } : Sketch).holder =
      Function.update s.holder (.constraint id) r := by
  funext o
  rw [Function.update_apply]
  cases o with
  | point w => exact (if_neg nofun).symm
  | constraint j => exact (h j).trans (if_congr (by rw [Origin.constraint.injEq, eq_comm]) rfl rfl)
  | fixes => exact (if_neg nofun).symm

theorem holder_root (s : Sketch) (r : Option ClusterId) :
    ({ s with root := r } : Sketch).holder = Function.update s.holder .fixes r := by
  funext o
  rw [Function.update_apply]
  cases o with
  | point w => exact (if_neg nofun).symm
  | constraint j => exact (if_neg nofun).symm
  | fixes => exact (if_pos rfl).symm

/-! ### Runs -/

theorem run_runSolver {α : Type} {x : SolverM α} {a : α} {t : Solver}
    (h : x.run.run s.solver = (.ok a, t)) :
    (runSolver x).run.run s = (.ok a, { s with solver := t }) := by
  unfold runSolver
  rw [Change.run_get_bind, h]
  rfl

theorem run_requireCluster {e : Except ClusterError Cluster} (h : e = .ok o) :
    (requireCluster e).run.run s = (.ok o, s) := by
  rw [h]
  rfl

theorem Follows.bind {x : SketchM Unit} {y : SketchM Unit} {f' : Figure} (h : Follows x s f)
    (hy : ∀ s', InStep f s' → s'.problem = s.problem → s'.listener = s.listener →
      Follows y s' f') : Follows (x >>= fun _ => y) s f' := by
  obtain ⟨s₁, hrun, h₁, hproblem, hlistener⟩ := h
  obtain ⟨s₂, hrun₂, h₂, hproblem₂, hlistener₂⟩ := hy s₁ h₁ hproblem hlistener
  exact ⟨s₂, (Change.run_bind_of_ok hrun _).trans hrun₂, h₂, hproblem₂.trans hproblem,
    hlistener₂.trans hlistener⟩

/-! ### Points -/

/-- A new point gets a cluster. -/
theorem InStep.addPointCluster (h : InStep f s) (hv : v ∉ f.points.keys) (q : Vec) :
    Follows (Sketch.addPointCluster v q) s { f with points := f.points.insert v q } := by
  have hop : s.solver.given.Admits (.setPrototype v q) := trivial
  obtain ⟨h₁, hholding₁, hreply⟩ := h.holding.run_other h.healthy hop fun _ => rfl
  have hgiven₁ := h.healthy.given_perform hop
  have hnone : f.piece? (.point v) = none := by
    rw [Figure.piece?, OrderedMap.find?_eq_none.2 hv]
    rfl
  obtain ⟨hvalid, hfits⟩ := Cluster.fits_rigid (l := [(v, q)]) nofun
  obtain ⟨n, t₁, t₂, hadd, hassign, h₂, hholding, hgiven₂, -⟩ :=
    hholding₁.run_add h₁ hnone hvalid hfits
  refine ⟨{ s with solver := t₂, points := s.points.insert v n }, ?_, ?_, rfl, rfl⟩
  · -- The call draws the prototype and adds the cluster with its position.
    have hcluster : Cluster.rigidOf [v] = .ok _ := Cluster.checked_of_valid hvalid
    unfold Sketch.addPointCluster
    rw [Change.run_bind_of_ok (run_runSolver (Solver.run_of_reply hreply)),
      Change.run_bind_of_ok (run_requireCluster hcluster),
      Change.run_bind_of_ok (run_runSolver hadd),
      Change.run_bind_of_ok (run_runSolver hassign)]
    rfl
  · -- The one new piece is held by the one new cluster.
    rw [hgiven₁] at hgiven₂
    refine inStep_of_given h₂ hgiven₂ ?_ h.root (congrArg (·.insert v q) h.prototypes) h.selection
      h.fixed
    rw [Figure.piece?_points fun w => OrderedMap.find?_insert ..]
    exact (holder_points fun w => OrderedMap.find?_insert ..).symm ▸ hholding

/-- The root is not a cluster of another origin. -/
theorem InStep.filter_root {o : Origin} (h : InStep f s) (ho : s.holder o = some n)
    (hne : o ≠ .fixes) : s.solver.given.root.filter (· ≠ n) = s.root := by
  rw [show s.solver.given.root = s.root from h.root]
  cases hroot : s.root with
  | none => rfl
  | some r =>
    refine Option.filter_eq_some_iff.2 ⟨rfl, decide_eq_true ?_⟩
    rintro rfl
    exact hne (h.holding.injective o .fixes r ho hroot)

theorem run_requirePoint (hq : s.problem.points.find? v = some q) :
    (requirePoint v).run.run s = (.ok q, s) := by
  unfold requirePoint
  rw [Change.run_get_bind, hq]
  rfl

theorem piece?_point (hq : f.points.find? v = some q) :
    f.piece? (.point v) = some (.rigid (.ofList [v]), .single v q) := by
  rw [Figure.piece?, hq]
  rfl

/-- The cluster of a point goes with it. -/
theorem InStep.removePoint (h : InStep f s) (hv : f.points.find? v = some q) :
    Follows (follow (.removePoint v)) s { f with points := f.points.erase v } := by
  obtain ⟨n, hn, -⟩ := h.holding.exists_of_piece (piece?_point hv)
  obtain ⟨t₁, hremove, h₁, hholding₁, hgiven₁⟩ := h.holding.run_remove h.healthy hn
  have hop : t₁.given.Admits (.clearPrototype v) := trivial
  obtain ⟨h₂, hholding₂, hreply⟩ := hholding₁.run_other h₁ hop fun _ => rfl
  have hgiven₂ := h₁.given_perform hop
  refine ⟨{ s with solver := t₁.perform (.clearPrototype v), points := s.points.erase v }, ?_, ?_,
    rfl, rfl⟩
  · -- The call drops the cluster and then the prototype.
    have hdrop : (dropPointCluster v).run.run s =
        (.ok (), { s with solver := t₁, points := s.points.erase v }) := by
      unfold dropPointCluster
      rw [Change.run_get_bind, show s.points.find? v = some n from hn]
      exact run_runSolver (s := { s with points := s.points.erase v }) hremove
    rw [follow, Change.run_bind_of_ok hdrop]
    exact run_runSolver (Solver.run_of_reply hreply)
  · -- What the solver was given is what the figure without the point asks for.
    rw [hgiven₁] at hgiven₂
    refine inStep_of_given h₂ hgiven₂ ?_ (h.filter_root hn nofun)
      (congrArg (·.erase v) h.prototypes) h.selection h.fixed
    rw [Figure.piece?_points fun w => OrderedMap.find?_erase ..]
    exact (holder_points fun w => OrderedMap.find?_erase ..).symm ▸ hholding₂

/-- The cluster of a point moves with it. -/
theorem InStep.setPoint {q₀ : Vec} (h : InStep f s) (hv : f.points.find? v = some q₀)
    (hq : s.problem.points.find? v = some q) :
    Follows (follow (.setPoint v)) s { f with points := f.points.insert v q } := by
  obtain ⟨n, hn, -⟩ := h.holding.exists_of_piece (piece?_point hv)
  obtain ⟨hvalid, hfits⟩ := Cluster.fits_rigid (l := [(v, q)]) nofun
  obtain ⟨t₁, hassign, h₁, hholding₁, hgiven₁⟩ :=
    h.holding.run_assign h.healthy hn (piece?_point hv) hfits
  have hop : t₁.given.Admits (.setPrototype v q) := trivial
  obtain ⟨h₂, hholding₂, hreply⟩ := hholding₁.run_other h₁ hop fun _ => rfl
  have hgiven₂ := h₁.given_perform hop
  refine ⟨{ s with solver := t₁.perform (.setPrototype v q) }, ?_, ?_, rfl, rfl⟩
  · -- The call assigns the new position and then draws the prototype there.
    have hmove : (movePointCluster v q).run.run s = (.ok (), { s with solver := t₁ }) := by
      unfold movePointCluster
      rw [Change.run_get_bind, show s.points.find? v = some n from hn]
      exact run_runSolver hassign
    rw [follow, Change.run_bind_of_ok (run_requirePoint hq), Change.run_bind_of_ok hmove]
    exact run_runSolver (Solver.run_of_reply hreply)
  · rw [hgiven₁] at hgiven₂
    refine inStep_of_given h₂ hgiven₂ ?_ h.root (congrArg (·.insert v q) h.prototypes) h.selection
      h.fixed
    rw [Figure.piece?_points fun w => OrderedMap.find?_insert ..]
    exact hholding₂

/-! ### Distances and angles -/

/-- A constraint that has a cluster neither before nor after makes no difference. -/
theorem InStep.alter (h : InStep f s) (hm : f.Alters id m)
    (hold : (f.constraints.find? id).bind Constraint.piece? = none)
    (hnew : (m.find? id).bind Constraint.piece? = none) :
    InStep { f with constraints := m } s := by
  have hpiece := Figure.piece?_constraint hm.other hm.fixes
  have hold : f.piece? (.constraint id) = none := hold
  rw [hnew, ← hold, Function.update_eq_self] at hpiece
  exact ⟨h.healthy, hpiece ▸ h.holding, h.root, h.prototypes,
    h.selection.trans hm.selections.symm, h.fixed.trans hm.fixes.symm⟩

theorem updateParameter_of_piece? (hc : c.piece? = some (o, conf)) :
    updateParameter id c = assignCluster id conf := by
  obtain ⟨a, b, x, rfl, -, rfl⟩ | ⟨a, b, p, x, rfl, -, -, rfl⟩ := Constraint.cases_of_piece? hc <;>
    rfl

theorem followConstraint_of_piece? (hc : c.piece? = some (o, conf)) :
    followConstraint id c = addConstraintCluster id c o.checked := by
  obtain ⟨a, b, x, rfl, rfl, -⟩ | ⟨a, b, p, x, rfl, -, rfl, -⟩ := Constraint.cases_of_piece? hc <;>
    rfl

/-- A distance or an angle gets a cluster. -/
theorem InStep.addConstraintCluster (h : InStep f s) (hid : id ∉ f.constraints.keys)
    (hc : c.piece? = some (o, conf)) :
    Follows (followConstraint id c) s { f with constraints := f.constraints.insert id c } := by
  obtain ⟨hvalid, hfits⟩ := Constraint.fits_of_piece? hc
  have halters := Figure.alters_insert hid (Constraint.measures_of_piece? hc)
  have hnone : f.piece? (.constraint id) = none := by
    rw [Figure.piece?, OrderedMap.find?_eq_none.2 hid]
    rfl
  obtain ⟨n, t₁, t₂, hadd, hassign, h₂, hholding, hgiven, -⟩ :=
    h.holding.run_add h.healthy hnone hvalid hfits
  refine ⟨{ s with solver := t₂, clusters := s.clusters.insert id n }, ?_, ?_, rfl, rfl⟩
  · -- The call: a valid cluster is added, noted under the handle and given its configuration.
    have hnew : (s.clusters.insert id n).find? id = some n := OrderedMap.find?_insert_self ..
    rw [followConstraint_of_piece? hc, Sketch.addConstraintCluster,
      Change.run_bind_of_ok (run_requireCluster (Cluster.checked_of_valid hvalid)),
      Change.run_bind_of_ok (run_runSolver hadd), updateParameter_of_piece? hc]
    show (assignCluster id conf).run.run
      { s with solver := t₁, clusters := s.clusters.insert id n } = _
    unfold assignCluster
    rw [Change.run_get_bind, hnew]
    exact run_runSolver (s := { s with solver := t₁, clusters := s.clusters.insert id n }) hassign
  · -- The figure: the one new piece is held by the one new cluster.
    refine inStep_of_given h₂ hgiven ?_ h.root h.prototypes
      (h.selection.trans halters.selections.symm) (h.fixed.trans halters.fixes.symm)
    rw [Figure.piece?_constraint halters.other halters.fixes, OrderedMap.find?_insert_self,
      Option.bind_some, hc]
    exact (holder_clusters fun j => OrderedMap.find?_insert ..).symm ▸ hholding

/-- The cluster of a distance or an angle goes with it. -/
theorem InStep.dropConstraintCluster (h : InStep f s) (hm : f.Alters id m)
    (hid : m.find? id = none) :
    Follows (Sketch.dropConstraintCluster id) s { f with constraints := m } := by
  have hpiece := Figure.piece?_constraint hm.other hm.fixes
  rw [hid, Option.bind_none] at hpiece
  unfold Sketch.dropConstraintCluster
  cases hn : s.clusters.find? id with
  | none =>
    -- Without a cluster there is nothing to do, and there was no piece.
    refine ⟨s, ?_, h.alter hm ((h.holding.eq_none_iff (o := .constraint id)).1 hn) ?_, rfl, rfl⟩
    · rw [Change.run_get_bind, hn]
      rfl
    · rw [hid]
      rfl
  | some n =>
    -- The cluster goes, and its piece with it.
    obtain ⟨t, hremove, h₁, hholding, hgiven⟩ :=
      h.holding.run_remove (o := .constraint id) h.healthy hn
    refine ⟨{ s with solver := t, clusters := s.clusters.erase id }, ?_, ?_, rfl, rfl⟩
    · rw [Change.run_get_bind, hn]
      exact run_runSolver (s := { s with clusters := s.clusters.erase id }) hremove
    · refine inStep_of_given h₁ hgiven ?_ (h.filter_root (o := .constraint id) hn nofun)
        h.prototypes (h.selection.trans hm.selections.symm) (h.fixed.trans hm.fixes.symm)
      rw [hpiece]
      exact (holder_clusters fun j => OrderedMap.find?_erase ..).symm ▸ hholding

/-- The cluster of a distance or an angle gets another number. -/
theorem InStep.assignCluster (h : InStep f s) (hm : f.Alters id m)
    (hc : (f.constraints.find? id).bind Constraint.piece? = some (o, conf))
    (hid : m.find? id = some c') (hc' : c'.piece? = some (o, conf')) :
    Follows (Sketch.assignCluster id conf') s { f with constraints := m } := by
  have hpiece := Figure.piece?_constraint hm.other hm.fixes
  rw [hid, Option.bind_some, hc'] at hpiece
  have hc : f.piece? (.constraint id) = some (o, conf) := hc
  obtain ⟨n, hn, -⟩ := h.holding.exists_of_piece hc
  obtain ⟨t, hassign, h₁, hholding, hgiven⟩ :=
    h.holding.run_assign h.healthy hn hc (Constraint.fits_of_piece? hc').2
  refine ⟨{ s with solver := t }, ?_, ?_, rfl, rfl⟩
  · unfold Sketch.assignCluster
    rw [Change.run_get_bind, show s.clusters.find? id = some n from hn]
    exact run_runSolver hassign
  · exact inStep_of_given h₁ hgiven (hpiece ▸ hholding) h.root h.prototypes
      (h.selection.trans hm.selections.symm) (h.fixed.trans hm.fixes.symm)

/-! ### Fixed points -/

/-- The cluster of the fixed points goes, and with it the root. -/
theorem InStep.run_dropRoot (h : InStep f s) (fixed : OrderedMap PointName Vec) :
    ∃ t, dropRoot.run.run { s with fixed := fixed } =
        (.ok (), { s with fixed := fixed, solver := t, root := none }) ∧ t.Healthy ∧
      Holding (Function.update s.holder .fixes none) (Function.update f.piece? .fixes none)
        t.stock ∧ t.given = { s.solver.given with stock := t.stock, root := none } := by
  unfold dropRoot
  rw [Change.run_get_bind]
  cases hroot : s.root with
  | none =>
    have hpiece := (h.holding.eq_none_iff (o := .fixes)).1 hroot
    refine ⟨s.solver, rfl, h.healthy, ?_, Solver.Given.ext rfl (h.root.trans hroot) rfl rfl⟩
    rw [← hpiece, Function.update_eq_self, ← hroot]
    exact (Function.update_eq_self Origin.fixes s.holder).symm ▸ h.holding
  | some r =>
    obtain ⟨t, hremove, ht, hholding, hgiven⟩ :=
      h.holding.run_remove (o := .fixes) h.healthy hroot
    refine ⟨t, ?_, ht, hholding, hgiven.trans (Solver.Given.ext rfl ?_ rfl rfl)⟩
    · exact run_runSolver (s := { s with fixed := fixed, root := none }) hremove
    · -- The root was just the cluster that goes.
      show s.solver.decomposition.root.filter _ = none
      rw [h.root, hroot, Option.filter_some, decide_eq_false (not_not.2 rfl)]
      rfl

/-- The fixed points get a new cluster, which is the root, if there are any. -/
theorem InStep.rebuildRoot {fixed : OrderedMap PointName Vec} (h : InStep f s)
    (hfixed : fixed.entries = Figure.readings Constraint.fix? m)
    (hpiece : ∀ j, (m.find? j).bind Constraint.piece? =
      (f.constraints.find? j).bind Constraint.piece?)
    (hselections : Figure.readings Constraint.selection? m = f.selections) :
    Follows Sketch.rebuildRoot { s with fixed := fixed } { f with constraints := m } := by
  obtain ⟨t, hdrop, ht, hholding, hgiven⟩ := h.run_dropRoot fixed
  have hpieces := Figure.piece?_fixes hpiece
  rw [← hfixed] at hpieces
  unfold Follows Sketch.rebuildRoot
  rw [Change.run_bind_of_ok hdrop]
  unfold raiseRoot
  rw [Change.run_get_bind]
  by_cases hsize : fixed.size = 0
  · refine ⟨{ s with fixed := fixed, solver := t, root := none }, ?_, ?_, rfl, rfl⟩
    · rw [if_neg (not_not.2 hsize)]
      rfl
    · refine inStep_of_given ht hgiven ?_ rfl h.prototypes (h.selection.trans hselections.symm)
        hfixed
      rw [hpieces, List.length_eq_zero_iff.1 hsize]
      exact (holder_root s none).symm ▸ hholding
  · have hanchor : Figure.anchor? fixed.entries =
        some (.rigid (.ofList fixed.keys), .ofPoints fixed) := by
      rw [Figure.anchor?_of_ne_nil (mt List.length_eq_zero_iff.2 hsize), Configuration.ofList,
        OrderedMap.ofList_entries]
      rfl
    obtain ⟨hvalid, hfits⟩ := Figure.fits_anchor? hanchor
    have hcluster : Cluster.rigidOf fixed.keys = .ok _ := Cluster.checked_of_valid hvalid
    obtain ⟨n, t₁, t₂, hadd, hassign, h₂, hholding₂, hgiven₂, hstock⟩ :=
      hholding.run_add (o := .fixes) ht (Function.update_self ..) hvalid hfits
    have hop : t₂.given.Admits (.setRoot n) := ⟨_, _, hstock⟩
    obtain ⟨h₃, hholding₃, hreply⟩ := hholding₂.run_other h₂ hop fun _ => rfl
    have hgiven₃ := h₂.given_perform hop
    have hset := Solver.run_of_reply (x := Solver.setRoot n) hreply
    refine ⟨{ s with fixed := fixed, solver := t₂.perform (.setRoot n), root := some n }, ?_, ?_,
      rfl, rfl⟩
    · rw [if_pos hsize,
        Change.run_bind_of_ok (run_requireCluster hcluster),
        Change.run_bind_of_ok (run_runSolver hadd),
        Change.run_bind_of_ok (run_runSolver hassign),
        Change.run_bind_of_ok (run_runSolver hset)]
      rfl
    · rw [hgiven₂, hgiven] at hgiven₃
      refine inStep_of_given h₃ hgiven₃ ?_ rfl h.prototypes (h.selection.trans hselections.symm)
        hfixed
      -- The old cluster of the fixed points has left no trace.
      rw [hpieces, hanchor]
      rw [Function.update_idem, Function.update_idem] at hholding₃
      exact (holder_root s (some n)).symm ▸ hholding₃

/-- A fixed point gets another position. -/
theorem InStep.moveFixed (h : InStep f s) (hd : f.Distinct)
    (hid : f.constraints.find? id = some (.fix v q)) (q' : Vec) :
    Follows (updateParameter id (.fix v q')) s
      { f with constraints := f.constraints.modify id fun _ => .fix v q' } := by
  have hmem : (v, q) ∈ s.fixed.entries := h.fixed ▸ Figure.mem_fixes.2 ⟨id, hid⟩
  have hkeys : v ∈ s.fixed.keys := List.mem_map_of_mem hmem
  have hentries : (s.fixed.insert v q').entries =
      Figure.readings Constraint.fix? (f.constraints.modify id fun _ => .fix v q') := by
    rw [OrderedMap.insert_of_mem hkeys, OrderedMap.entries_modify, h.fixed, hd.fixes_modify hid]
  -- The points of the root are the same, in the same order.
  have hold := Figure.anchor?_of_ne_nil (h.fixed ▸ List.ne_nil_of_mem hmem)
  have hnew : Figure.anchor? (s.fixed.insert v q').entries =
      some (.rigid (.ofList (f.fixes.map Prod.fst)), .ofPoints (s.fixed.insert v q')) := by
    have hne : (s.fixed.insert v q').entries ≠ [] := by
      rw [OrderedMap.insert_of_mem hkeys, OrderedMap.entries_modify]
      exact mt List.map_eq_nil_iff.1 (List.ne_nil_of_mem hmem)
    have hnames : (s.fixed.insert v q').entries.map Prod.fst = f.fixes.map Prod.fst := by
      rw [← h.fixed]
      exact (OrderedMap.keys_insert ..).trans (if_pos hkeys)
    rw [Figure.anchor?_of_ne_nil hne, hnames, Configuration.ofList, OrderedMap.ofList_entries]
  obtain ⟨r, hr, -⟩ := h.holding.exists_of_piece (o := .fixes) hold
  obtain ⟨t, hassign, h₁, hholding, hgiven⟩ := h.holding.run_assign (o := .fixes) h.healthy hr hold
    (Figure.fits_anchor? hnew).2
  have hother : ∀ j, j ≠ id →
      (f.constraints.modify id fun _ => .fix v q').find? j = f.constraints.find? j :=
    fun j hj => by rw [OrderedMap.find?_modify, if_neg hj.symm]
  have hpiece := Figure.piece?_fixes (Figure.bind_piece?_congr hother (by rw [hid]; rfl)
    (by rw [OrderedMap.find?_modify, if_pos rfl, hid]; rfl))
  rw [← hentries, hnew] at hpiece
  have hselections : Figure.readings Constraint.selection?
      (f.constraints.modify id fun _ => .fix v q') = f.selections :=
    Figure.readings_modify_of_none hid rfl rfl
  refine ⟨{ s with solver := t, fixed := s.fixed.insert v q' }, ?_, ?_, rfl, rfl⟩
  · have hroot : s.root = some r := hr
    have hset : s = { s with root := some r } := by rw [← hroot]
    rw [hset, updateParameter]
    exact run_runSolver (s := { s with fixed := s.fixed.insert v q', root := some r }) hassign
  · exact inStep_of_given h₁ hgiven (hpiece ▸ hholding) h.root h.prototypes
      (h.selection.trans hselections.symm) hentries

/-! ### Questions -/

/-- A change of the solver's questions alone. -/
theorem InStep.askOther (op : Solver.Operation) {y : SolverM Bool} (h : InStep f s)
    (hop : s.solver.given.Admits op)
    (hrun : s.solver.reply op = .ok () → ∃ b, y.run.run s.solver = (.ok b, s.solver.perform op))
    (hkeep : ∀ next, (s.solver.given.after next op).stock = s.solver.stock ∧
      (s.solver.given.after next op).root = s.solver.given.root ∧
      (s.solver.given.after next op).prototypes = s.solver.prototypes ∧
      (s.solver.given.after next op).selection.toList = Figure.readings Constraint.selection? m)
    (hpiece : ∀ j, (m.find? j).bind Constraint.piece? =
      (f.constraints.find? j).bind Constraint.piece?)
    (hfixes : Figure.readings Constraint.fix? m = f.fixes) :
    Follows (do let _ ← runSolver y; return ()) s { f with constraints := m } := by
  obtain ⟨h₁, hholding, hreply⟩ := h.holding.run_other h.healthy hop fun next => (hkeep next).1
  obtain ⟨b, hb⟩ := hrun hreply
  have hsame := Figure.piece?_fixes hpiece
  rw [hfixes, show Figure.anchor? f.fixes = f.piece? .fixes from rfl,
    Function.update_eq_self] at hsame
  refine ⟨{ s with solver := s.solver.perform op }, ?_, ?_, rfl, rfl⟩
  · rw [Change.run_bind_of_ok (run_runSolver hb)]
    rfl
  · obtain ⟨-, hroot, hprototypes, hselection⟩ := hkeep s.solver.decomposition.clusters.nextKey
    exact inStep_of_given h₁ (h.healthy.given_perform hop) (hsame ▸ hholding) (hroot.trans h.root)
      (hprototypes.trans h.prototypes) hselection (h.fixed.trans hfixes.symm)

theorem InStep.addSelection {t : SelectionConstraint} (h : InStep f s)
    (hid : id ∉ f.constraints.keys)
    (hnew : ∀ j d, f.constraints.find? j = some d → d.key ≠ (Constraint.selection t).key) :
    Follows (followConstraint id (.selection t)) s
      { f with constraints := f.constraints.insert id (.selection t) } := by
  have hfind := OrderedMap.find?_eq_none.2 hid
  refine h.askOther (.addSelection t) trivial
    (fun hreply => Solver.exists_run_of_reply hreply) (fun _ => ⟨rfl, rfl, rfl, ?_⟩)
    (Figure.bind_piece?_congr (fun j hj => OrderedMap.find?_insert_of_ne _ _ hj.symm) ?_ ?_) ?_
  · -- No constraint with this key was there, so the question is new to the solver.
    have hno : t ∉ s.solver.selection := by
      intro ht
      obtain ⟨j, hj⟩ := Figure.mem_selections.1 (h.selection ▸ OrderedSet.mem_toList.2 ht)
      exact hnew j _ hj rfl
    rw [Figure.readings_insert hid]
    show (s.solver.selection.insert t).toList = _
    rw [OrderedSet.toList_insert_of_not_mem hno, h.selection]
    rfl
  · rw [hfind]
    rfl
  · rw [OrderedMap.find?_insert_self]
    rfl
  · rw [Figure.readings_insert hid]
    exact List.append_nil _

theorem InStep.removeSelection {t : SelectionConstraint} (h : InStep f s) (hd : f.Distinct)
    (hid : f.constraints.find? id = some (.selection t)) :
    Follows (unfollowConstraint id (.selection t)) s
      { f with constraints := f.constraints.erase id } := by
  refine h.askOther (.removeSelection t) trivial
    (fun hreply => Solver.exists_run_of_reply hreply) (fun _ => ⟨rfl, rfl, rfl, ?_⟩)
    (Figure.bind_piece?_congr (fun j hj => OrderedMap.find?_erase_of_ne _ hj.symm) ?_ ?_) ?_
  · rw [hd.selections_erase hid]
    show (s.solver.selection.erase t).toList = _
    rw [OrderedSet.toList_erase, h.selection]
  · rw [hid]
    rfl
  · rw [OrderedMap.find?_erase_self]
    rfl
  · exact Figure.readings_erase_of_none hid rfl

/-! ### Constraints -/

/-- A sketch follows a new constraint. -/
theorem InStep.followConstraint (h : InStep f s) (hid : id ∉ f.constraints.keys)
    (hnew : ∀ j d, f.constraints.find? j = some d → d.key ≠ c.key) (hc : c.flaw? = none) :
    Follows (Sketch.followConstraint id c) s
      { f with constraints := f.constraints.insert id c } := by
  have hfind := OrderedMap.find?_eq_none.2 hid
  cases c with
  | distance a b x => exact h.addConstraintCluster hid rfl
  | angle a b c x =>
    exact h.addConstraintCluster hid (if_pos (Constraint.flaw?_angle_eq_none.1 hc))
  | fix v q =>
    -- No constraint with this key was there, so the point was not fixed.
    have hv : v ∉ s.fixed.keys := by
      intro hv
      obtain ⟨e, he, rfl⟩ := List.mem_map.1 hv
      obtain ⟨j, hj⟩ := Figure.mem_fixes.1 (h.fixed ▸ he)
      exact hnew j _ hj rfl
    have hfixed : (s.fixed.insert v q).entries =
        Figure.readings Constraint.fix? (f.constraints.insert id (.fix v q)) := by
      rw [OrderedMap.entries_insert_of_new hv, h.fixed, Figure.readings_insert hid]
      rfl
    -- The figure asks no further question, and the cluster of all fixed points is made anew.
    have hselections : Figure.readings Constraint.selection?
        (f.constraints.insert id (.fix v q)) = f.selections :=
      (Figure.readings_insert hid).trans (List.append_nil _)
    refine h.rebuildRoot hfixed (Figure.bind_piece?_congr
      (fun j hj => OrderedMap.find?_insert_of_ne _ _ hj.symm) ?_ ?_) hselections
    · rw [hfind]
      rfl
    · rw [OrderedMap.find?_insert_self]
      rfl
  | selection t => exact h.addSelection hid hnew

/-- A sketch takes a constraint back. -/
theorem InStep.unfollowConstraint (h : InStep f s) (hd : f.Distinct)
    (hid : f.constraints.find? id = some c) :
    Follows (Sketch.unfollowConstraint id c) s
      { f with constraints := f.constraints.erase id } := by
  have hgone : (f.constraints.erase id).find? id = none := OrderedMap.find?_erase_self ..
  cases c with
  | distance a b x =>
    exact h.dropConstraintCluster (Figure.alters_erase hid ⟨rfl, rfl⟩) hgone
  | angle a b c x =>
    exact h.dropConstraintCluster (Figure.alters_erase hid ⟨rfl, rfl⟩) hgone
  | fix v q =>
    -- The point was fixed by no other constraint, so it is fixed no more.
    have hfixed : (s.fixed.erase v).entries =
        Figure.readings Constraint.fix? (f.constraints.erase id) := by
      rw [hd.fixes_erase hid, ← h.fixed]
      rfl
    refine h.rebuildRoot hfixed (Figure.bind_piece?_congr
      (fun j hj => OrderedMap.find?_erase_of_ne _ hj.symm) ?_ ?_)
      (Figure.readings_erase_of_none hid rfl)
    · rw [hid]
      rfl
    · rw [hgone]
      rfl
  | selection t => exact h.removeSelection hd hid

/-- A sketch passes another number on. -/
theorem InStep.updateParameter (h : InStep f s) (hd : f.Distinct)
    (hid : f.constraints.find? id = some c) (hx : c.withParameter? x = some c')
    (hc' : c'.flaw? = none) :
    Follows (Sketch.updateParameter id c') s
      { f with constraints := f.constraints.modify id fun _ => c' } := by
  -- Distances and angles are alike: their clusters stay and get other configurations.
  have hmeasures (hm : c.Measures) (hm' : c'.Measures) : Follows (Sketch.updateParameter id c') s
      { f with constraints := f.constraints.modify id fun _ => c' } := by
    obtain ⟨o, conf', hpiece'⟩ := hm'.exists_piece? hc'
    obtain ⟨conf, hpiece⟩ := Constraint.exists_piece?_of_withParameter? hx hpiece'
    have hold : (f.constraints.find? id).bind Constraint.piece? = some (o, conf) := by
      rw [hid]
      exact hpiece
    rw [updateParameter_of_piece? hpiece']
    refine h.assignCluster (Figure.alters_modify hid hm hm') hold ?_ hpiece'
    rw [OrderedMap.find?_modify, if_pos rfl, hid]
    rfl
  cases c <;> cases x <;> cases hx
  · exact hmeasures ⟨rfl, rfl⟩ ⟨rfl, rfl⟩
  · exact hmeasures ⟨rfl, rfl⟩ ⟨rfl, rfl⟩
  · exact h.moveFixed hd hid _

/-- An angle that names a point twice gets no cluster. -/
theorem InStep.followConstraint_of_flaw {e : ClusterError} (h : InStep f s)
    (hid : id ∉ f.constraints.keys) (hc : c.flaw? = some e) :
    (Sketch.followConstraint id c).run.run s = (.error (.cluster e), s) ∧
      InStep { f with constraints := f.constraints.insert id c } s := by
  obtain ⟨hmeasures, hpiece⟩ := Constraint.piece?_of_flaw? hc
  refine ⟨?_, h.alter (Figure.alters_insert hid hmeasures) ?_ ?_⟩
  · cases c with
    | angle a b c x =>
      -- The check of the new cluster fails before anything is done.
      have hcluster : Cluster.hedgehogOf b [a, c] = .error e := by
        rw [Constraint.flaw?] at hc
        split at hc
        · cases hc
        · rename_i e' he
          rw [he, Option.some_inj.1 hc]
      rw [Sketch.followConstraint, hcluster]
      rfl
    | distance a b x => cases hc
    | fix v q => cases hc
    | selection t => cases hc
  · rw [OrderedMap.find?_eq_none.2 hid]
    rfl
  · rw [OrderedMap.find?_insert_self]
    -- The constraint has come into the figure all the same, but it has no piece there.
    exact hpiece

/-- There is no cluster to pass its number on to. -/
theorem InStep.updateParameter_of_flaw {e : ClusterError} (h : InStep f s)
    (hid : f.constraints.find? id = some c) (hx : c.withParameter? x = some c')
    (hc : c.flaw? = some e) :
    (Sketch.updateParameter id c').run.run s = (.error (.problem .unknownConstraint), s) ∧
      InStep { f with constraints := f.constraints.modify id fun _ => c' } s := by
  obtain ⟨hmeasures, hpiece⟩ := Constraint.piece?_of_flaw? hc
  obtain ⟨hmeasures', hpiece'⟩ :=
    Constraint.piece?_of_flaw? ((Constraint.flaw?_withParameter? hx).trans hc)
  have hnone : (f.constraints.find? id).bind Constraint.piece? = none := by
    rw [hid]
    exact hpiece
  refine ⟨?_, h.alter (Figure.alters_modify hid hmeasures hmeasures') hnone ?_⟩
  · -- No cluster stands for the angle, with its old number or with the new one.
    have hno : s.clusters.find? id = none :=
      (h.holding.eq_none_iff (o := .constraint id)).2 hnone
    have hassign (conf : Configuration) : (Sketch.assignCluster id conf).run.run s =
        (.error (.problem .unknownConstraint), s) := by
      unfold Sketch.assignCluster
      rw [Change.run_get_bind, hno]
      rfl
    cases c' with
    | distance a b x => exact hassign _
    | angle a b c x => exact hassign _
    | fix v q => cases hmeasures'.1
    | selection t => cases hmeasures'.2
  · rw [OrderedMap.find?_modify, if_pos rfl, hid]
    exact hpiece'

end Sketch

end PlanarSketch
