/-
All bookkeeping describes one decomposition.

The clusters and merges are kept in five places: two registries, the chart,
the dataflow and the worklist.  After every run of calls they agree: the
worklist is empty, the chart shows just the clusters, points and merges in
use, and the dataflow has one cell for each of them and the two methods of
each merge.

* `Reachable.drawn`: the chart after any operation;
* `Present.not_transGen_dependency`: dependencies lead forward;
* `Solver.bookkeeping_run`: what holds after every run.
-/
import PlanarSketch.Proofs.Replies
import PlanarSketch.Proofs.Termination

namespace PlanarSketch

namespace Decomposition

variable {d d' : Decomposition} {id : ClusterId}

/-! ### The chart after an operation -/

theorem Drawn.receive (h : d.Drawn) (c : Cluster) : (d.receive c).2.Drawn :=
  (h.insertCluster ⟨c, false, false⟩).enqueue _

theorem Drawn.process (h : d.Drawn) (hs : d.Sound) : d.process.Drawn := by
  refine (hs.process_of_search (P := Drawn) (fun _ _ hd => hd.congr rfl rfl rfl rfl rfl)
    (fun x id plan hx hd htop hfound => ?_) h).2
  obtain ⟨ps, hf⟩ := finding_of_search htop hfound
  exact hx.grounded.carryOut_induction (hf.sound hx.grounded)
    (fun _ _ _ hfits hd => hd.addMerge hfits.inputs hfits.consumed) hd

theorem Drawn.dropConsumers (h : d.Drawn) (hs : d.Sound) (id : ClusterId) :
    (d.dropConsumers id).Drawn :=
  (foldl_drop_undone (undoes_dropMerge d.merges.size) (d.consumers id) (Nat.le_refl _) hs.grounded
    hs.settled).1.drawn h

theorem Drawn.dropCluster (h : d.Drawn) (hs : d.Sound) (hid : d.determining? id = none) :
    (d.dropCluster id).Drawn := by
  obtain ⟨hs', hrem, hin⟩ := hs.dropConsumers id
  exact (h.dropConsumers hs id).discard hs'.grounded fun k m hk =>
    ⟨hin k m hk, determining?_eq_none.1 hid k m (hrem.merges k m hk)⟩

theorem Drawn.rebuildDependents (h : d.Drawn) (hs : d.Sound) (id : ClusterId) :
    (d.rebuildDependents id).Drawn := by
  unfold Decomposition.rebuildDependents
  split
  · dsimp only
    split
    · exact (h.dropConsumers hs id).enqueue id
    · exact h.dropConsumers hs id
  · exact h

theorem Drawn.withRootMark (h : d.Drawn) (hid : d.Live id) : (d.withRootMark id).Drawn := by
  unfold Decomposition.withRootMark
  cases d.root.filter (· ≠ id) with
  | none =>
    have hroot : { d with root := some id }.Drawn := h.congr rfl rfl rfl rfl rfl
    exact hroot.markRoot fun _ => hid
  | some old =>
    have hold : (d.markRoot false old).Drawn := h.markRoot nofun
    have hroot : { d.markRoot false old with root := some id }.Drawn :=
      hold.congr rfl rfl rfl rfl rfl
    refine hroot.markRoot fun _ => (live_congr ?_).2 hid
    exact cluster?_markRoot false old

theorem Drawn.reroot (h : d.Drawn) (hs : d.Sound) (hid : d.Live id) : (d.reroot id).Drawn := by
  have hmark := h.withRootMark hid
  have hm := hs.withRootMark id
  rw [reroot_eq]
  cases d.root.filter (· ≠ id) with
  | none => exact hmark.rebuildDependents hm id
  | some old =>
    exact (hmark.rebuildDependents hm old).rebuildDependents (hm.rebuildDependents old).1 id

/-- After any operation the chart has just the vertices and edges that are called for. -/
theorem Reachable.drawn (h : d.Reachable) : d.Drawn :=
  h.induction_of_changes drawn_empty (fun _ hx => hx.congr rfl rfl rfl rfl rfl)
    (fun _ c _ _ hx => hx.receive c) (fun _ _ hd hdet hx => hx.dropCluster hd.sound hdet)
    (fun _ _ _ hd hp hx => hx.reroot hd.sound (live_of_cluster? hp)) fun _ hs hx => hx.process hs

/-! ### Dependencies -/

/-- A merge stands between its inputs and its output. -/
def level (d : Decomposition) : Vertex → Nat
  | .cluster id => 2 * id.serial + 1
  | .merge k => ((d.merges.find? k).map fun m => 2 * m.output.serial).getD 0
  | _ => 0

theorem Ties.level_lt {x y : Vertex} (h : d.Ties x .dependency y) (hg : d.Grounded) :
    d.level x < d.level y := by
  cases h with
  | @reads k m id hk hid =>
    have hlt := (hg.merge k m hk).younger id hid
    simp only [level, hk, Option.map_some, Option.getD_some]
    omega
  | @writes k m hk =>
    simp only [level, hk, Option.map_some, Option.getD_some]
    omega

/-- Dependencies never lead back. -/
theorem Grounded.not_transGen_dependency (hg : d.Grounded) (x : Vertex) :
    ¬Relation.TransGen (fun x y => d.Ties x .dependency y) x x := by
  have hrise : ∀ {a b}, Relation.TransGen (fun x y => d.Ties x .dependency y) a b →
      d.level a < d.level b := by
    intro a b hab
    induction hab with
    | single hstep => exact hstep.level_lt hg
    | tail _ hstep ih => exact ih.trans (hstep.level_lt hg)
  exact fun hx => Nat.lt_irrefl _ (hrise hx)

end Decomposition

namespace Solver

open Decomposition

/-- After any run nothing waits to be searched; the chart has just the vertices and edges that the
clusters, points and merges in use call for; the points are those of the clusters in use;
dependencies never lead back; and the dataflow has just the cell of the prototype, a cell for every
cluster and every merge, and for every merge the method that computes its candidates and the
selector, which are different and no other merge's. -/
theorem bookkeeping_run (config : SolverConfig) (ops : List Operation) :
    let s := run config ops
    let d := s.decomposition
    d.worklist = [] ∧
      (∀ x, d.chart.hasVertex x = true ↔ d.Present x) ∧
      (∀ x t y, d.chart.weight? x y = some t ↔ d.Ties x t y) ∧
      (∀ v, v ∈ d.points ↔ ∃ id c, d.cluster? id = some c ∧ v ∈ c) ∧
      (∀ x, ¬Relation.TransGen (fun x y => d.chart.weight? x y = some .dependency) x x) ∧
      Mirrors d s ∧
      (∀ q j k, s.Operates q j → s.Operates q k → j = k) ∧
      ∀ k w, s.wirings.find? k = some w → w.mergeMethod ≠ w.selectMethod := by
  have hreach := reachable_run config ops
  have hmirrors := mirrors_run config ops
  have hdrawn := hreach.drawn
  have hg := hreach.sound.grounded
  refine ⟨hreach.worklist_eq_nil, hdrawn.vertex, hdrawn.edge, hg.points, ?_, hmirrors,
    fun _ _ _ hj hk => hmirrors.eq_of_operates hj hk, fun _ _ hk => hmirrors.mergeMethod_ne hk⟩
  simp only [hdrawn.edge]
  exact hg.not_transGen_dependency

end Solver

end PlanarSketch
