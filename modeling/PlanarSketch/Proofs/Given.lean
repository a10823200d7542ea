/-
What a solver has been given.

A caller who adds clusters, gives them candidates, names a root, places points
and adds constraints can say at any time what the solver has been given.  A
call that asks for nothing but what is there succeeds, and changes what has
been given as it says: the solver refines the bookkeeping of its caller.

* `Given`, `Given.after`: what has been given, and what a call makes of it;
* `Given.Admits`: the calls that can be carried out;
* `Healthy`: a solver in order, which admitted calls keep (`Healthy.perform`);
* `Healthy.reply_eq_ok`, `Healthy.given_perform`: they succeed, and give what
  they say.
-/
import PlanarSketch.Proofs.Additions
import PlanarSketch.Proofs.Selectors

namespace PlanarSketch

namespace Solver

open Decomposition

variable {s s' s₁ : Solver} {x d : Decomposition} {id : ClusterId} {k : MergeId} {m : Merge}
  {c : CellId Candidates} {v : Option Candidates} {op : Operation}

/-! ### What a solver has been given -/

/-- What a solver has been given: the clusters that were added, with the candidates that they were
given, the root, the sketch as drawn, and the constraints on solutions. -/
@[ext] structure Given where
  stock : ClusterId → Option (Cluster × Option Candidates)
  root : Option ClusterId
  prototypes : OrderedMap PointName Vec
  selection : OrderedSet SelectionConstraint

/-- What a solver has been given after a call that it can carry out; `next` is the key that an added
cluster gets. -/
def Given.after (g : Given) (next : ClusterId) : Operation → Given
  | .add c => { g with stock := Function.update g.stock next (some (c, none)) }
  | .remove id =>
    { g with stock := Function.update g.stock id none, root := g.root.filter (· ≠ id) }
  | .setRoot id => { g with root := some id }
  | .assign id v =>
    { g with stock := Function.update g.stock id ((g.stock id).map fun e => (e.1, some v)) }
  | .setPrototype name p => { g with prototypes := g.prototypes.insert name p }
  | .clearPrototype name => { g with prototypes := g.prototypes.erase name }
  | .addSelection q => { g with selection := g.selection.insert q }
  | .removeSelection q => { g with selection := g.selection.erase q }

/-- The root is a cluster that was added. -/
def Given.Rooted (g : Given) : Prop := ∀ r, g.root = some r → ∃ e, g.stock r = some e

/-- A call that can be carried out: it adds a valid cluster, asks for one that was added, makes a
rigid among them the root, or gives one of them candidates that fit. -/
def Given.Admits (g : Given) : Operation → Prop
  | .add c => c.Valid
  | .remove id => ∃ e, g.stock id = some e
  | .setRoot id => ∃ p v, g.stock id = some (.rigid p, v)
  | .assign id v => ∃ c w, g.stock id = some (c, w) ∧ ∀ conf ∈ v, conf.Fits c
  | _ => True

/-- The added clusters with their candidates. -/
def stock (s : Solver) (id : ClusterId) : Option (Cluster × Option Candidates) :=
  (s.decomposition.added? id).map fun c => (c, s.candidates? id)

/-- What a solver has been given. -/
def given (s : Solver) : Given := ⟨s.stock, s.decomposition.root, s.prototypes, s.selection⟩

theorem exists_added?_of_stock {e : Cluster × Option Candidates} (h : s.stock id = some e) :
    ∃ o, s.decomposition.added? id = some o := by
  obtain ⟨o, ho, -⟩ := Option.map_eq_some_iff.1 h
  exact ⟨o, ho⟩

theorem stock_eq_some {o : Cluster} :
    s.stock id = some (o, v) ↔ s.decomposition.added? id = some o ∧ s.candidates? id = v := by
  simp [stock, eq_comm]

/-- A solver in order: nothing but what has been given to it decides what it answers, and no call
that it admits fails. -/
structure Healthy (s : Solver) : Prop where
  reachable : s.decomposition.Reachable
  mirrors : Mirrors s.decomposition s
  attuned : s.Attuned
  fitted : Fitted s.decomposition s
  rooted : s.given.Rooted

theorem healthy_withConfig (config : SolverConfig) : (withConfig config).Healthy where
  reachable := .empty
  mirrors := (faithful_withConfig config).mirrors
  attuned := attuned_withConfig config
  fitted := fitted_withConfig config
  rooted := fun _ hr => by cases hr

/-! ### One call -/

/-- An evaluation gives the added clusters nothing. -/
theorem Mirrors.stock_propagate {g : Dataflow Candidates} (h : Mirrors s.decomposition s)
    (hp : s.flow.propagate = (.ok (), g)) : { s with flow := g }.stock = s.stock := by
  funext i
  unfold stock
  dsimp only
  cases hi : s.decomposition.added? i with
  | none => rfl
  | some o =>
    obtain ⟨c, hc⟩ := h.rests hi
    have hvalue : Solver.candidates? { s with flow := g } i = s.candidates? i := by
      conv_lhs => unfold Solver.candidates?
      rw [hc.cell]
      exact hc.holds.propagate hp
    rw [hvalue]

/-- Replaying the journal of a change gives candidates to no cluster, and takes them only from those
that go. -/
theorem Healthy.stock_replay (h : s.Healthy) (hop : op.change? s.decomposition = some (.ok d))
    (hr : (d.journal.forM replay).run.run { s with decomposition := d.withoutJournal } =
      (.ok (), s₁)) (i : ClusterId) :
    (s.decomposition.added? i = d.added? i → s₁.stock i = s.stock i) ∧
      (¬s.decomposition.Live i → s₁.stock i = (d.added? i).map fun c => (c, none)) ∧
      (d.added? i = none → s₁.stock i = none) := by
  have hd : s₁.decomposition.added? i = d.added? i := by
    have hkeeps := keeps_forM d.journal keeps_replay { s with decomposition := d.withoutJournal }
    rw [hr] at hkeeps
    rw [show s₁.decomposition = d.withoutJournal from hkeeps]
    exact added?_congr rfl rfl
  refine ⟨fun hsame => ?_, fun hno => ?_, fun hnone => ?_⟩
  · unfold stock
    rw [hd, hsame]
    cases hi : d.added? i with
    | none => rfl
    | some o =>
      obtain ⟨c, hc⟩ := h.mirrors.rests (hsame.trans hi)
      obtain ⟨hcluster, hout⟩ := added?_eq_some.1 hi
      obtain ⟨hnew, hgone⟩ := h.reachable.spares_of_change hop i
        (live_of_cluster? (added?_eq_some.1 (hsame.trans hi)).1) (live_of_cluster? hcluster)
      -- It was there and stays, so no edit of the journal is about it.
      have hstart : Rests { s with decomposition := d.withoutJournal } i c (s.candidates? i) :=
        ⟨hc.cell, hc.holds, hc.sole⟩
      have hrests := (forM_eq_ok (I := fun s₁ => s₁.decomposition = d.withoutJournal ∧
        s₁.Rests i c (s.candidates? i)) (fun e he s₁ s₂ hI h₂ => ?_) ⟨rfl, hstart⟩ hr).2
      · rw [hrests.candidates?]
      · have hkeeps := keeps_replay e s₁
        rw [h₂] at hkeeps
        refine ⟨hkeeps.trans hI.1, hI.2.replay ?_ ?_ ?_ h₂⟩
        · rintro rfl
          exact hnew he
        · rintro rfl
          exact hgone he
        · rw [hI.1]
          exact hout
  · have hdraws := drawsOn_forM (f := replay) (fun _ _ _ hr => drawsOn_replay hr) hr
    -- Replaying sets no cell: what has a value had it before.
    have hnone : s₁.candidates? i = none := by
      refine Option.eq_none_iff_forall_ne_some.2 fun v hv => ?_
      obtain ⟨c, hc, hvalue⟩ := Option.bind_eq_some_iff.1 hv
      exact hno ((h.mirrors.clusters i).2 ⟨c, (hdraws c (.cluster i) v hc hvalue).1⟩)
    unfold stock
    rw [hd, hnone]
  · unfold stock
    rw [hd, hnone]
    rfl

theorem prototypes_replay {e : Edit} (hr : (replay e).run.run s = (.ok (), s')) :
    s'.prototypes = s.prototypes := by
  match e with
  | .clusterAdded i =>
    obtain ⟨label, rfl⟩ := wireCluster_eq_ok hr
    rfl
  | .mergeAdded k =>
    simp only [replay] at hr
    rw [Change.run_get_bind] at hr
    split at hr
    · obtain ⟨label, inputs, merge, g₁, out, select, g₂, -, -, -, -, rfl⟩ := wireMerge_eq_ok hr
      rfl
    · obtain ⟨-, rfl⟩ := pure_eq_ok.1 hr
      rfl
  | .mergeRemoved k =>
    rcases unwireMerge_eq_ok hr with ⟨rfl, -⟩ | ⟨w, g₁, g₂, g₃, -, -, -, -, rfl⟩ <;> rfl
  | .clusterRemoved i =>
    rcases unwireCluster_eq_ok hr with ⟨rfl, -⟩ | ⟨a, g, -, -, rfl⟩ <;> rfl

/-- A changed decomposition is taken over. -/
theorem Healthy.given_restructure (h : s.Healthy)
    (hop : op.change? s.decomposition = some (.ok d))
    (hr : (restructure d).run.run s = (.ok (), s')) :
    (s'.decomposition.root = d.root ∧ s'.prototypes = s.prototypes) ∧ ∀ i,
      (s.decomposition.added? i = d.added? i → s'.stock i = s.stock i) ∧
      (¬s.decomposition.Live i → s'.stock i = (d.added? i).map fun c => (c, none)) ∧
      (d.added? i = none → s'.stock i = none) := by
  obtain ⟨s₁, g, h₁, hg, rfl⟩ := restructure_eq_ok hr
  have hmirrors := (Prepares.restructured hop h₁).mirrors h.mirrors h.reachable
  have hkeeps := keeps_forM d.journal keeps_replay { s with decomposition := d.withoutJournal }
  rw [h₁] at hkeeps
  have hprototypes : s₁.prototypes = s.prototypes :=
    forM_eq_ok (s := { s with decomposition := d.withoutJournal })
      (I := fun s₁ => s₁.prototypes = s.prototypes)
      (fun _ _ _ _ hI h₂ => (prototypes_replay h₂).trans hI) rfl h₁
  replace hkeeps : s₁.decomposition = d.withoutJournal := hkeeps
  have hroot : s₁.decomposition.root = d.root := by
    rw [hkeeps]
    rfl
  refine ⟨⟨hroot, hprototypes⟩, fun i => ?_⟩
  rw [hmirrors.stock_propagate hg]
  exact h.stock_replay hop h₁ i

theorem Mirrors.candidates?_write (h : Mirrors s.decomposition s) {i : ClusterId} {o : Cluster}
    (hi : s.decomposition.added? i = some o) (a : CellId Candidates) (w : Option Candidates) :
    Solver.candidates? { s with flow := s.flow.write a w } i =
      if s.cells.find? i = some a then w else s.candidates? i := by
  obtain ⟨c, hc⟩ := h.rests hi
  conv_lhs => unfold Solver.candidates?
  rw [hc.cell]
  refine (hc.holds.write a w).value.trans (if_congr ?_ rfl rfl)
  rw [Option.some_inj, eq_comm]

theorem Mirrors.stock_assign (h : Mirrors s.decomposition s) (hc : s.cells.find? id = some c)
    (w : Candidates) : { s with flow := s.flow.write c (some w) }.stock =
      Function.update s.stock id ((s.stock id).map fun e => (e.1, some w)) := by
  funext i
  -- No other cluster has this cell.
  have hself : s.cells.find? i = some c ↔ i = id :=
    ⟨fun hi => CellRole.cluster.inj (h.allotted.unique c (.cluster i) (.cluster id) hi hc),
      fun he => he ▸ hc⟩
  unfold stock
  cases hi : s.decomposition.added? i with
  | none =>
    rw [Function.update_apply]
    split
    · rename_i he
      rw [← he, hi]
      rfl
    · rw [hi]
      rfl
  | some o =>
    rw [h.candidates?_write hi, Function.update_apply]
    simp only [hself]
    split
    · rename_i he
      rw [← he, hi]
      rfl
    · rw [hi]

/-- The sketch as drawn is kept in a cell of its own. -/
theorem Mirrors.stock_drawn (h : Mirrors s.decomposition s) (p : OrderedMap PointName Vec)
    (w : Option Candidates) :
    { s with prototypes := p, flow := s.flow.write s.prototypeCell w }.stock = s.stock := by
  funext i
  have hself : s.cells.find? i ≠ some s.prototypeCell := fun hi => by
    cases h.allotted.unique s.prototypeCell (.cluster i) .prototype hi rfl
  unfold stock
  dsimp only
  cases hi : s.decomposition.added? i with
  | none => rfl
  | some o =>
    have hvalue := h.candidates?_write hi s.prototypeCell w
    rw [if_neg hself] at hvalue
    exact congrArg (fun v => some (o, v)) hvalue

/-- New selectors leave the candidates of added clusters alone. -/
theorem Mirrors.stock_rebuild (h : Mirrors s.decomposition s) {ks : List MergeId}
    (hr : (ks.forM Solver.rebuildSelector).run.run s = (.ok (), s₁)) : s₁.stock = s.stock := by
  have hkeeps := keeps_forM ks keeps_rebuildSelector s
  rw [hr] at hkeeps
  replace hkeeps : s₁.decomposition = s.decomposition := hkeeps
  funext i
  unfold stock
  rw [hkeeps]
  cases hi : s.decomposition.added? i with
  | none => rfl
  | some o =>
    obtain ⟨c, hc⟩ := h.rests hi
    -- What rests on a cluster survives every selector, since none of them ends in an added
    -- cluster.
    have hrests := (forM_eq_ok (I := fun s₁ => s₁.decomposition = s.decomposition ∧
      s₁.Rests i c (s.candidates? i)) (fun k _ s₁ s₂ hI h₂ => ?_) ⟨rfl, hc⟩ hr).2
    · rw [hrests.candidates?]
    · have hsame := keeps_rebuildSelector k s₁
      rw [h₂] at hsame
      refine ⟨hsame.trans hI.1, hI.2.rebuildSelector ?_ h₂⟩
      rw [hI.1]
      exact (added?_eq_some.1 hi).2

theorem prototypes_rebuildSelector (hr : (rebuildSelector k).run.run s = (.ok (), s')) :
    s'.prototypes = s.prototypes := by
  rcases rebuildSelector_eq_ok hr with ⟨rfl, -⟩ | ⟨m, w, out, select, g, -, -, -, -, rfl⟩ <;> rfl

/-! ### Calls that succeed -/

theorem assign_eq_ok {w : Candidates} (hr : (assign id w).run.run s = (.ok (), s')) :
    ∃ c g, s.cells.find? id = some c ∧ (s.flow.write c (some w)).propagate = (.ok (), g) ∧
      s' = { s with flow := g } := by
  obtain ⟨c, s₁, h₁, hr⟩ := bind_eq_ok.1 hr
  obtain ⟨hc, rfl⟩ := cellOf_eq_ok.1 h₁
  obtain ⟨_, s₂, h₂, hr⟩ := bind_eq_ok.1 hr
  obtain ⟨g₁, hg₁, rfl⟩ := editFlow_eq_ok.1 h₂
  obtain rfl := Dataflow.set_eq_ok hg₁
  obtain ⟨g, hg, rfl⟩ := propagate_eq_ok.1 hr
  exact ⟨c, g, hc, hg, rfl⟩

theorem refreshPrototype_eq_ok (hr : refreshPrototype.run.run s = (.ok (), s')) :
    ∃ g, (s.flow.write s.prototypeCell (some [.ofPoints s.prototypes])).propagate = (.ok (), g) ∧
      s' = { s with flow := g } := by
  unfold refreshPrototype at hr
  rw [Change.run_get_bind] at hr
  obtain ⟨_, s₂, h₂, hr⟩ := bind_eq_ok.1 hr
  obtain ⟨g₁, hg₁, rfl⟩ := editFlow_eq_ok.1 h₂
  obtain rfl := Dataflow.set_eq_ok hg₁
  obtain ⟨g, hg, rfl⟩ := propagate_eq_ok.1 hr
  exact ⟨g, hg, rfl⟩

/-- The sketch as drawn is all that such a call changes of what has been given. -/
theorem Healthy.given_refresh (h : s.Healthy) {p : OrderedMap PointName Vec}
    (hr : refreshPrototype.run.run { s with prototypes := p } = (.ok (), s')) :
    s'.given = { s.given with prototypes := p } := by
  obtain ⟨g, hg, rfl⟩ := refreshPrototype_eq_ok hr
  have hprepared : Prepares s (.clearPrototype "") _ := .drawn (p := p) rfl rfl
  have hmirrors := hprepared.mirrors h.mirrors h.reachable
  have hstock := (hmirrors.stock_propagate hg).trans
    (h.mirrors.stock_drawn p (some [.ofPoints p]))
  exact Given.ext hstock rfl rfl rfl

/-- The constraints on solutions are all that such a call changes of what has been given. -/
theorem Healthy.stock_rebuildSelectors (h : s.Healthy)
    {f : OrderedSet SelectionConstraint → OrderedSet SelectionConstraint} {a b : Bool}
    (hr : ((modify fun s => { s with selection := f s.selection }) >>= fun _ =>
      rebuildSelectors >>= fun _ => pure a : SolverM Bool).run.run s = (.ok b, s')) :
    s'.stock = s.stock ∧ s'.decomposition.root = s.decomposition.root ∧
      s'.prototypes = s.prototypes := by
  obtain ⟨_, s₀, h₀, hr⟩ := bind_eq_ok.1 hr
  obtain rfl := modify_eq_ok.1 h₀
  obtain ⟨_, s₂, h₂, hr⟩ := bind_eq_ok.1 hr
  obtain ⟨-, rfl⟩ := pure_eq_ok.1 hr
  unfold Solver.rebuildSelectors at h₂
  rw [Change.run_get_bind] at h₂
  obtain ⟨_, s₁, h₁, h₂⟩ := bind_eq_ok.1 h₂
  obtain ⟨g, hg, rfl⟩ := propagate_eq_ok.1 h₂
  have hstart : Mirrors s.decomposition { s with selection := f s.selection } :=
    h.mirrors.congr (fun _ => Iff.rfl) rfl rfl rfl rfl rfl rfl h.mirrors.formed
  have hmirrors : Mirrors s₁.decomposition s₁ :=
    forM_eq_ok (I := fun s => Mirrors s.decomposition s)
      (fun _ _ _ _ hm hre => hm.rebuildSelector hre) hstart h₁
  have hkeeps := keeps_forM s.roster.members keeps_rebuildSelector
    { s with selection := f s.selection }
  rw [h₁] at hkeeps
  replace hkeeps : s₁.decomposition = s.decomposition := hkeeps
  have hprototypes : s₁.prototypes = s.prototypes :=
    forM_eq_ok (s := { s with selection := f s.selection })
      (I := fun s₁ => s₁.prototypes = s.prototypes)
      (fun _ _ _ _ hI h₂ => (prototypes_rebuildSelector h₂).trans hI) rfl h₁
  refine ⟨(hmirrors.stock_propagate hg).trans ?_, congrArg Decomposition.root hkeeps, hprototypes⟩
  exact Mirrors.stock_rebuild (s := { s with selection := f s.selection }) hstart h₁

theorem Healthy.stock_addSelection (h : s.Healthy) {q : SelectionConstraint} {b : Bool}
    (hr : (Solver.addSelection q).run.run s = (.ok b, s')) :
    s'.stock = s.stock ∧ s'.decomposition.root = s.decomposition.root ∧
      s'.prototypes = s.prototypes := by
  unfold Solver.addSelection at hr
  rw [Change.run_get_bind] at hr
  split at hr
  · obtain ⟨-, rfl⟩ := pure_eq_ok.1 hr
    exact ⟨rfl, rfl, rfl⟩
  · exact h.stock_rebuildSelectors (f := fun p => p.insert q) hr

theorem Healthy.stock_removeSelection (h : s.Healthy) {q : SelectionConstraint} {b : Bool}
    (hr : (Solver.removeSelection q).run.run s = (.ok b, s')) :
    s'.stock = s.stock ∧ s'.decomposition.root = s.decomposition.root ∧
      s'.prototypes = s.prototypes := by
  unfold Solver.removeSelection at hr
  rw [Change.run_get_bind] at hr
  split at hr
  · exact h.stock_rebuildSelectors (f := fun p => p.erase q) hr
  · obtain ⟨-, rfl⟩ := pure_eq_ok.1 hr
    exact ⟨rfl, rfl, rfl⟩

/-- A call that is admitted asks for something that there is, with candidates that fit. -/
theorem allowed_of_admits (hop : s.given.Admits op) :
    op.Allowed s.decomposition ∧ s.assignsFitting op = true := by
  match op, hop with
  | .add c, hc => exact ⟨hc, rfl⟩
  | .remove id, ⟨(c, v), he⟩ =>
    obtain ⟨hcluster, hout⟩ := added?_eq_some.1 (stock_eq_some.1 he).1
    exact ⟨⟨live_of_cluster? hcluster, determining?_eq_none.2 hout⟩, rfl⟩
  | .setRoot id, ⟨p, v, he⟩ => exact ⟨⟨p, (added?_eq_some.1 (stock_eq_some.1 he).1).1⟩, rfl⟩
  | .assign id w, ⟨c, v, he, hfits⟩ =>
    have hcluster := (added?_eq_some.1 (stock_eq_some.1 he).1).1
    refine ⟨live_of_cluster? hcluster, ?_⟩
    rw [assignsFitting, hcluster]
    exact List.all_eq_true.2 fun conf hconf => decide_eq_true (hfits conf hconf)
  | .setPrototype _ _, _ => exact ⟨trivial, rfl⟩
  | .clearPrototype _, _ => exact ⟨trivial, rfl⟩
  | .addSelection _, _ => exact ⟨trivial, rfl⟩
  | .removeSelection _, _ => exact ⟨trivial, rfl⟩

/-- A call that is admitted succeeds. -/
theorem Healthy.reply_eq_ok (h : s.Healthy) (hop : s.given.Admits op) : s.reply op = .ok () := by
  obtain ⟨hallowed, hfitting⟩ := allowed_of_admits hop
  rcases h.mirrors.reply_of_allowed h.reachable hallowed with hok | ⟨failure, hfailed⟩
  · exact hok
  · exact absurd hfailed ((h.fitted.perform h.mirrors h.reachable hfitting).2 _)

theorem exists_run_of_reply {α : Type} {x : SolverM α}
    (hr : ((x.run.run s).1.map fun _ => ()) = .ok ()) :
    ∃ a, x.run.run s = (.ok a, (x.run.run s).2) := by
  match hx : x.run.run s with
  | (.ok a, s') => exact ⟨a, rfl⟩
  | (.error e, s') =>
    rw [hx] at hr
    cases hr

theorem run_of_reply {x : SolverM Unit} (hr : (x.run.run s).1 = .ok ()) :
    x.run.run s = (.ok (), (x.run.run s).2) :=
  Prod.ext hr rfl

theorem Healthy.run_add (h : s.Healthy) {o : Cluster} (ho : o.Valid) :
    (Solver.add o).run.run s = (.ok s.decomposition.clusters.nextKey, s.perform (.add o)) := by
  obtain ⟨id, hr⟩ := exists_run_of_reply (h.reply_eq_ok (show s.given.Admits (.add o) from ho))
  obtain ⟨d, hd, -⟩ := add_eq_ok hr
  obtain ⟨-, rfl, -⟩ := h.reachable.sound.add_eq_ok.1 hd
  exact hr

/-- A call that is admitted changes what has been given as it says, and nothing else of it. -/
theorem Healthy.given_perform (h : s.Healthy) (hop : s.given.Admits op) :
    (s.perform op).given = s.given.after s.decomposition.clusters.nextKey op := by
  have hreply := h.reply_eq_ok hop
  have hselection := (h.attuned.perform h.mirrors h.reachable op).2.1
  -- The first three calls change the decomposition, so each goes through `given_restructure`; what
  -- differs is which added clusters change.
  match op, hop with
  | .add o, hop =>
    obtain ⟨d, hd, hr⟩ := add_eq_ok (h.run_add hop)
    have hchange : (Operation.add o).change? s.decomposition = some (.ok d) := by
      rw [Operation.change?, hd]
      rfl
    obtain ⟨-, hroot, hadded⟩ := h.reachable.added?_add hd
    obtain ⟨⟨hroot', hprototypes⟩, hstock⟩ := h.given_restructure hchange hr
    refine Given.ext (funext fun i => ?_) (hroot'.trans hroot) hprototypes hselection
    refine Eq.trans ?_ (Function.update_apply ..).symm
    -- Only the new key has a new entry, and nothing stood there.
    by_cases hi : i = s.decomposition.clusters.nextKey
    · rw [if_pos hi]
      refine ((hstock i).2.1 (hi ▸ not_live_nextKey)).trans ?_
      rw [hadded, if_pos hi]
      rfl
    · rw [if_neg hi]
      exact (hstock i).1 (by rw [hadded, if_neg hi])
  | .remove id, _ =>
    obtain ⟨d, hd, hr⟩ := remove_eq_ok (run_of_reply hreply)
    have hchange : (Operation.remove id).change? s.decomposition = some (.ok d) := congrArg some hd
    -- The root has been added, so a removal can only take it when it names it.
    have hrooted : ∀ r, s.decomposition.root = some r → ∃ o, s.decomposition.added? r = some o :=
      fun r hr => (h.rooted r hr).elim fun _ he => exists_added?_of_stock he
    obtain ⟨hroot, hadded⟩ := h.reachable.added?_remove hrooted hd
    obtain ⟨⟨hroot', hprototypes⟩, hstock⟩ := h.given_restructure hchange hr
    refine Given.ext (funext fun i => ?_) (hroot'.trans hroot) hprototypes hselection
    refine Eq.trans ?_ (Function.update_apply ..).symm
    -- Only the removed cluster loses its entry.
    by_cases hi : i = id
    · rw [if_pos hi]
      exact (hstock i).2.2 (by rw [hadded, if_pos hi])
    · rw [if_neg hi]
      exact (hstock i).1 (by rw [hadded, if_neg hi])
  | .setRoot id, ⟨p, v, he⟩ =>
    obtain ⟨d, hd, hr⟩ := attempt_eq_ok (run_of_reply hreply)
    have hchange : (Operation.setRoot id).change? s.decomposition = some (.ok d) :=
      congrArg some hd
    obtain ⟨hroot, hadded⟩ := h.reachable.added?_setRoot (stock_eq_some.1 he).1 hd
    obtain ⟨⟨hroot', hprototypes⟩, hstock⟩ := h.given_restructure hchange hr
    exact Given.ext (funext fun i => (hstock i).1 (hadded i).symm) (hroot'.trans hroot) hprototypes
      hselection
  | .assign id w, _ =>
    obtain ⟨c, g, hc, hg, hs'⟩ := assign_eq_ok (run_of_reply hreply)
    have hprepared : Prepares s (.assign id w) _ := .assigned hc
    have hmirrors := hprepared.mirrors h.mirrors h.reachable
    -- The assignment writes one candidate list and the propagation none of an added cluster.
    have hstock := (hmirrors.stock_propagate hg).trans (h.mirrors.stock_assign hc w)
    rw [show s.perform (.assign id w) = _ from hs']
    exact Given.ext hstock rfl rfl rfl
  | .setPrototype name p, _ =>
    obtain ⟨_, s₁, h₁, hr⟩ := bind_eq_ok.1 (run_of_reply hreply)
    obtain rfl := modify_eq_ok.1 h₁
    exact h.given_refresh hr
  | .clearPrototype name, _ =>
    have hrun : (Solver.clearPrototype name).run.run s =
        (.ok (), s.perform (.clearPrototype name)) := run_of_reply hreply
    generalize s.perform (.clearPrototype name) = s' at hrun ⊢
    unfold Solver.clearPrototype at hrun
    rw [Change.run_get_bind] at hrun
    split at hrun
    · obtain ⟨_, s₁, h₁, hr⟩ := bind_eq_ok.1 hrun
      obtain rfl := modify_eq_ok.1 h₁
      exact h.given_refresh hr
    · rename_i hname
      -- Without a prototype of that name the call does nothing.
      obtain ⟨-, rfl⟩ := pure_eq_ok.1 hrun
      have hkeep := OrderedMap.erase_of_not_mem (mt (OrderedMap.contains_iff ..).2 hname)
      exact Given.ext rfl rfl hkeep.symm rfl
  | .addSelection q, _ =>
    obtain ⟨b, hr⟩ := exists_run_of_reply hreply
    obtain ⟨hstock, hroot, hprototypes⟩ := h.stock_addSelection hr
    exact Given.ext hstock hroot hprototypes hselection
  | .removeSelection q, _ =>
    obtain ⟨b, hr⟩ := exists_run_of_reply hreply
    obtain ⟨hstock, hroot, hprototypes⟩ := h.stock_removeSelection hr
    exact Given.ext hstock hroot hprototypes hselection

/-- What has not been added is not in stock. -/
theorem stock_nextKey (s : Solver) : s.stock s.decomposition.clusters.nextKey = none := by
  unfold stock
  rw [added?_of_not_live not_live_nextKey]
  rfl

theorem Given.Rooted.after {g : Given} {next : ClusterId} (h : g.Rooted)
    (hnext : g.stock next = none) (hop : g.Admits op) : (g.after next op).Rooted := by
  match op, hop with
  | .add c, _ =>
    intro r hr
    obtain ⟨e, he⟩ := h r hr
    -- The root has an entry and the new key has none.
    have hne : r ≠ next := by
      rintro rfl
      rw [hnext] at he
      cases he
    exact ⟨e, (Function.update_of_ne hne ..).trans he⟩
  | .remove id, _ =>
    intro r hr
    obtain ⟨hr, hne⟩ := Option.filter_eq_some_iff.1 hr
    obtain ⟨e, he⟩ := h r hr
    exact ⟨e, (Function.update_of_ne (of_decide_eq_true hne) ..).trans he⟩
  | .setRoot id, ⟨p, v, he⟩ =>
    intro r hr
    obtain rfl := Option.some_inj.1 hr
    exact ⟨_, he⟩
  | .assign id w, _ =>
    intro r hr
    obtain ⟨e, he⟩ := h r hr
    -- The assigned cluster keeps an entry, with other positions.
    refine (em (r = id)).elim (fun hid => ⟨(e.1, some w), ?_⟩) fun hne =>
      ⟨e, (Function.update_of_ne hne ..).trans he⟩
    subst hid
    exact (Function.update_self ..).trans (congrArg (Option.map _) he)
  | .setPrototype _ _, _ => exact h
  | .clearPrototype _, _ => exact h
  | .addSelection _, _ => exact h
  | .removeSelection _, _ => exact h

/-- A call that is admitted leaves a solver in order. -/
theorem Healthy.perform (h : s.Healthy) (hop : s.given.Admits op) : (s.perform op).Healthy where
  reachable := reachable_perform h.reachable op
  mirrors := h.mirrors.perform h.reachable op
  attuned := (h.attuned.perform h.mirrors h.reachable op).1
  fitted := (h.fitted.perform h.mirrors h.reachable (allowed_of_admits hop).2).1
  rooted := by
    rw [h.given_perform hop]
    exact h.rooted.after (stock_nextKey s) hop

/-- A valid cluster is added and given a configuration that fits. -/
theorem Healthy.install (h : s.Healthy) {o : Cluster} {conf : Configuration} (ho : o.Valid)
    (hconf : conf.Fits o) :
    let n := s.decomposition.clusters.nextKey
    ∃ s₁ s₂, (Solver.add o).run.run s = (.ok n, s₁) ∧
      (Solver.assign n [conf]).run.run s₁ = (.ok (), s₂) ∧ s₂.Healthy ∧ s.stock n = none ∧
      s₂.given = { s.given with stock := Function.update s.stock n (some (o, some [conf])) } := by
  intro n
  have hadd : s.given.Admits (.add o) := ho
  have h₁ := h.perform hadd
  have hgiven₁ := h.given_perform hadd
  have hstock : (s.perform (.add o)).given.stock n = some (o, none) := by
    rw [hgiven₁]
    exact Function.update_self ..
  have hassign : (s.perform (.add o)).given.Admits (.assign n [conf]) :=
    ⟨o, none, hstock, by simpa using hconf⟩
  refine ⟨s.perform (.add o), (s.perform (.add o)).perform (.assign n [conf]), h.run_add ho,
    run_of_reply (h₁.reply_eq_ok hassign), h₁.perform hassign, stock_nextKey s, ?_⟩
  rw [h₁.given_perform hassign, Given.after, hstock, hgiven₁]
  exact Given.ext (Function.update_idem ..) rfl rfl rfl

end Solver

end PlanarSketch
