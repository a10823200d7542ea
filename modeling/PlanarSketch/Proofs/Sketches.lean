/-
Runs of sketches.

A sketch changes its problem first and follows the events afterwards.  Between
calls nothing is left to follow: the solver has been given what the problem
shows.  A call that the problem refuses changes nothing; one that it accepts
succeeds, unless it reaches an angle that names a point twice.

* `Settled`: a sketch between calls, kept by every call (`Reached.settled`);
* `Goes`: how a call goes, and `Settled.addPoint`, … `Settled.setParameter`:
  the six calls;
* `portrays_run`: what the solver has been given, after every run;
* `failed_call_run`: which calls fail, and what they leave behind.
-/
import PlanarSketch.Proofs.Following

namespace PlanarSketch

namespace Problem

variable {p : Problem} {l : ListenerId ProblemEvent} {e : ProblemEvent}

/-! ### Events that are queued -/

theorem Coherent.distinct (h : p.Coherent) : p.figure.Distinct := by
  intro i j c d hi hj hk
  exact congrArg Prod.fst (h.eq_of_key_eq (OrderedMap.find?_eq_some.1 hi)
    (OrderedMap.find?_eq_some.1 hj) hk)

theorem Coherent.key_ne {c d : Constraint} {j : ConstraintId} (h : p.Coherent)
    (hc : ¬p.index.contains c.key = true) (hj : p.constraints.find? j = some d) :
    d.key ≠ c.key := by
  refine fun hk => hc ((OrderedMap.contains_iff ..).2 ?_)
  rw [OrderedMap.keys, h.index, List.map_map]
  exact List.mem_map.2 ⟨(j, d), Registry.find?_eq_some.1 hj, hk⟩

theorem isSubscribed_drain (p : Problem) (l : ListenerId ProblemEvent) :
    (p.drain l).2.feed.isSubscribed l = p.feed.isSubscribed l :=
  Feed.isSubscribed_drain ..

/-- Constraints that are removed are announced one by one. -/
theorem feed_foldl_without (es : List (ConstraintId × Constraint)) (p : Problem)
    (hl : p.feed.isSubscribed l = true) :
    (es.foldl without p).feed.isSubscribed l = true ∧
      (es.foldl without p).feed.queue l =
        p.feed.queue l ++ es.map fun e => .removeConstraint e.1 e.2 := by
  induction es generalizing p with
  | nil => exact ⟨hl, (List.append_nil _).symm⟩
  | cons e rest ih =>
    have hstill : (p.without e).feed.isSubscribed l = true :=
      (Feed.isSubscribed_publish ..).trans hl
    obtain ⟨hsub, hqueue⟩ := ih (p.without e) hstill
    refine ⟨hsub, hqueue.trans ?_⟩
    show (p.feed.publish _).queue l ++ _ = _
    rw [Feed.queue_publish _ _ hl, List.append_assoc]
    rfl

end Problem

namespace Sketch

variable {s s' : Sketch} {f : Figure} {p : Problem} {v : PointName} {q : Vec}
  {id : ConstraintId} {c : Constraint} {α : Type} {x : ProblemM α} {a : α}
  {failure : Option SketchError} {es : List ProblemEvent}

/-! ### Sketches between calls -/

/-- The solver has been given what the problem shows, and nothing is queued. -/
structure Settled (s : Sketch) : Prop where
  inStep : InStep s.problem.figure s
  coherent : s.problem.Coherent
  subscribed : s.problem.feed.isSubscribed s.listener = true
  queue : s.problem.feed.queue s.listener = []

/-- The problem is no part of what a sketch has made of it. -/
theorem InStep.withProblem (h : InStep f s) (p : Problem) : InStep f { s with problem := p } :=
  ⟨h.healthy, h.holding, h.root, h.prototypes, h.selection, h.fixed⟩

/-- The sketch with a changed problem, of which all events have been taken. -/
def caughtUp (s : Sketch) (p : Problem) : Sketch := { s with problem := (p.drain s.listener).2 }

theorem settled_of_drain (hp : p.Coherent) (hl : p.feed.isSubscribed s.listener = true)
    (hs : InStep p.figure s) (hproblem : s.problem = (p.drain s.listener).2) : s.Settled where
  inStep := hproblem ▸ hs
  coherent := hproblem ▸ ⟨hp.graph, hp.index, hp.known⟩
  subscribed := by rw [hproblem, Problem.isSubscribed_drain, hl]
  queue := by
    rw [hproblem]
    exact (Feed.queue_drain ..).trans (if_pos rfl)

/-- How a call goes that first changes the problem: it fails at once if the problem refuses, and
otherwise all events are followed, unless the call stumbles. -/
structure Goes (s : Sketch) (x : ProblemM α) (failure : Option SketchError) : Prop where
  refused : ∀ e, (x.run.run s.problem).1 = .error e →
    (change x).run.run s = (.error (.problem e), s)
  accepted : ∀ a, (x.run.run s.problem).1 = .ok a → failure = none →
    ∃ s', (change x).run.run s = (.ok a, s') ∧ s'.Settled ∧
      s'.problem = (s.caughtUp (x.run.run s.problem).2).problem
  stumbled : ∀ a e, (x.run.run s.problem).1 = .ok a → failure = some e →
    (change x).run.run s = (.error e, s.caughtUp (x.run.run s.problem).2) ∧
      (s.caughtUp (x.run.run s.problem).2).Settled

theorem goes_of_error {e : ProblemError} (hx : x.run.run s.problem = (.error e, s.problem)) :
    Goes s x failure := by
  refine ⟨fun e' he => ?_, fun a ha => ?_, fun a _ ha => ?_⟩
  · rw [hx] at he
    cases he
    unfold change runProblem
    rw [Change.run_bind, Change.run_get_bind, hx]
    rfl
  · rw [hx] at ha
    cases ha
  · rw [hx] at ha
    cases ha

/-- A change that is accepted is followed event by event. -/
theorem run_change (hx : x.run.run s.problem = (.ok a, p)) :
    (change x).run.run s = ((p.feed.queue s.listener).forM follow >>= fun _ => pure a).run.run
      (s.caughtUp p) := by
  unfold change runProblem
  rw [Change.run_bind, Change.run_get_bind, hx]
  rfl

theorem goes_of_ok (hx : x.run.run s.problem = (.ok a, p)) (hp : p.Coherent)
    (hl : p.feed.isSubscribed s.listener = true ∧ p.feed.queue s.listener = es)
    (hf : Follows (es.forM follow) (s.caughtUp p) p.figure) : Goes s x none := by
  obtain ⟨hl, rfl⟩ := hl
  obtain ⟨s', hrun, hstep, hproblem, hlistener⟩ := hf
  refine ⟨fun e he => ?_, fun b hb _ => ⟨s', ?_, ?_, ?_⟩, nofun⟩
  · rw [hx] at he
    cases he
  · rw [hx] at hb
    cases hb
    rw [run_change hx, Change.run_bind_of_ok hrun]
    rfl
  · refine settled_of_drain hp (hlistener ▸ hl) hstep (hproblem.trans ?_)
    rw [hlistener]
    rfl
  · rw [hproblem, hx]

theorem goes_of_stumble {e : SketchError} (hx : x.run.run s.problem = (.ok a, p)) (hp : p.Coherent)
    (hl : p.feed.isSubscribed s.listener = true ∧ p.feed.queue s.listener = es)
    (hs : InStep p.figure s)
    (hf : (es.forM follow).run.run (s.caughtUp p) = (.error e, s.caughtUp p)) :
    Goes s x (some e) := by
  obtain ⟨hl, rfl⟩ := hl
  refine ⟨fun e he => ?_, nofun, fun b e' hb he => ?_⟩
  · rw [hx] at he
    cases he
  · obtain rfl := Option.some_inj.1 he
    rw [run_change hx, Change.run_bind_of_error hf, hx]
    exact ⟨rfl, settled_of_drain hp hl (hs.withProblem _) rfl⟩

/-! ### The calls -/

theorem Settled.queue_publish (h : s.Settled) (e : ProblemEvent) :
    (s.problem.feed.publish e).isSubscribed s.listener = true ∧
      (s.problem.feed.publish e).queue s.listener = [e] := by
  refine ⟨(Feed.isSubscribed_publish ..).trans h.subscribed, ?_⟩
  rw [Feed.queue_publish _ _ h.subscribed, h.queue]
  rfl

theorem Follows.single {e : ProblemEvent} (h : Follows (follow e) s f) :
    Follows ([e].forM follow) s f :=
  h.bind fun s' hs' _ _ => ⟨s', rfl, hs', rfl, rfl⟩

theorem Follows.append {fs : List ProblemEvent} {f' : Figure} (h : Follows (es.forM follow) s f)
    (hfs : ∀ s', InStep f s' → Follows (fs.forM follow) s' f') :
    Follows ((es ++ fs).forM follow) s f' := by
  have happend : (es ++ fs).forM follow = es.forM follow >>= fun _ => fs.forM follow :=
    List.forM_append
  rw [happend]
  exact h.bind fun s' hs' _ _ => hfs s' hs'

theorem Settled.addPoint (h : s.Settled) (v : PointName) (q : Vec) :
    Goes s (ProblemM.addPoint v q) none := by
  have hrun := ProblemM.run_addPoint s.problem v q
  by_cases hv : s.problem.points.contains v = true
  · rw [if_pos hv] at hrun
    exact goes_of_error hrun
  · rw [if_neg hv] at hrun
    have hnew := mt (OrderedMap.contains_iff ..).2 hv
    have hpoint : (s.problem.points.insert v q).find? v = some q := OrderedMap.find?_insert_self ..
    refine goes_of_ok hrun (h.coherent.addPoint hnew q _) (h.queue_publish (.addPoint v))
      (Follows.single ?_)
    obtain ⟨s', hrun', hs'⟩ := (h.inStep.withProblem (s.caughtUp _).problem).addPointCluster hnew q
    refine ⟨s', ?_, hs'⟩
    rw [follow, Change.run_bind_of_ok (run_requirePoint hpoint)]
    exact hrun'

theorem Settled.setPoint (h : s.Settled) (v : PointName) (q : Vec) :
    Goes s (ProblemM.setPoint v q) none := by
  have hrun := ProblemM.run_setPoint s.problem v q
  by_cases hv : s.problem.points.contains v = true
  · rw [if_pos hv] at hrun
    have hmem := (OrderedMap.contains_iff ..).1 hv
    obtain ⟨q₀, hq₀⟩ := OrderedMap.exists_find? hmem
    exact goes_of_ok hrun (h.coherent.setPoint hmem q _) (h.queue_publish (.setPoint v))
      (Follows.single ((h.inStep.withProblem _).setPoint hq₀ (OrderedMap.find?_insert_self ..)))
  · rw [if_neg hv] at hrun
    exact goes_of_error hrun

/-- Constraints that are removed together are taken back one by one. -/
theorem InStep.unfollow_foldl {es : List (ConstraintId × Constraint)} (h : InStep p.figure s)
    (hp : p.Coherent) (hes : ∀ e ∈ es, p.constraints.find? e.1 = some e.2)
    (hnd : (es.map Prod.fst).Nodup) :
    Follows ((es.map fun e => ProblemEvent.removeConstraint e.1 e.2).forM follow) s
      (es.foldl Problem.without p).figure := by
  induction es generalizing p s with
  | nil => exact ⟨s, rfl, h, rfl, rfl⟩
  | cons e rest ih =>
    obtain ⟨hnew, hrest⟩ := List.nodup_cons.1 hnd
    have he := hes e List.mem_cons_self
    have hfirst : Follows (follow (.removeConstraint e.1 e.2)) s (p.without e).figure :=
      h.unfollowConstraint hp.distinct he
    refine hfirst.bind fun s' hs' _ _ => ih hs' (hp.without he) (fun d hd => ?_) hrest
    exact Registry.find?_erase_eq_some.2 ⟨fun hk => hnew (hk ▸ List.mem_map_of_mem hd),
      hes d (List.mem_cons_of_mem e hd)⟩

theorem Settled.removePoint (h : s.Settled) (v : PointName) :
    Goes s (ProblemM.removePoint v) none := by
  have hrun := h.coherent.run_removePoint v
  by_cases hv : s.problem.points.contains v = true
  · rw [if_pos hv] at hrun
    have hmem := (OrderedMap.contains_iff ..).1 hv
    obtain ⟨q, hq⟩ := OrderedMap.exists_find? hmem
    set es := s.problem.entriesOn v
    obtain ⟨hsub, hqueue⟩ := Problem.feed_foldl_without es s.problem h.subscribed
    -- The constraints on the point are announced before the point.
    have hevents : ((es.foldl Problem.without s.problem).withoutPoint v).feed.queue s.listener =
        es.map (fun e => ProblemEvent.removeConstraint e.1 e.2) ++ [.removePoint v] := by
      show ((es.foldl Problem.without s.problem).feed.publish _).queue _ = _
      rw [Feed.queue_publish _ _ hsub, hqueue, h.queue]
      rfl
    refine goes_of_ok hrun (h.coherent.removePoint v)
      ⟨(Feed.isSubscribed_publish ..).trans hsub, hevents⟩ ?_
    refine Follows.append ((h.inStep.withProblem _).unfollow_foldl h.coherent
      (fun e he => Problem.find?_of_mem_entriesOn he) (s.problem.nodup_entriesOn v))
      fun s' hs' => Follows.single (hs'.removePoint (q := q) ?_)
    show (es.foldl Problem.without s.problem).points.find? v = some q
    rw [Problem.points_foldl_without, hq]
  · rw [if_neg hv] at hrun
    exact goes_of_error hrun

theorem run_requireConstraint (hid : s.problem.constraints.find? id = some c) :
    (requireConstraint id).run.run s = (.ok c, s) := by
  unfold requireConstraint
  rw [Change.run_get_bind, hid]
  rfl

theorem Settled.addConstraint (h : s.Settled) (c : Constraint) :
    Goes s (ProblemM.addConstraint c) (c.flaw?.map .cluster) := by
  have hrun := ProblemM.run_addConstraint s.problem c
  split at hrun
  · exact goes_of_error hrun
  · rename_i hnames
    split at hrun
    · exact goes_of_error hrun
    · rename_i hkey
      -- Past both checks the problem takes the constraint and announces it.
      have hnew := mt (OrderedMap.contains_iff ..).2 hkey
      have hid := s.problem.constraints.nextKey_not_mem_keys
      have hqueue := h.queue_publish (.addConstraint s.problem.constraints.nextKey)
      have hcoherent := h.coherent.addConstraint (Problem.not_mem_names_find?_eq_none hnames) hnew
        (s.problem.feed.publish (.addConstraint s.problem.constraints.nextKey))
      have hfind : (s.problem.constraints.insert c).find? s.problem.constraints.nextKey = some c :=
        Registry.find?_insert_eq_some.2 (.inr ⟨rfl, rfl⟩)
      cases hc : c.flaw? with
      | some e =>
        obtain ⟨he, hstep⟩ :=
          (h.inStep.withProblem (s.caughtUp _).problem).followConstraint_of_flaw hid hc
        -- An angle that names a point twice has no cluster, so following it fails with the
        -- constraint taken.
        refine goes_of_stumble hrun hcoherent hqueue (hstep.withProblem s.problem)
          (Change.run_bind_of_error ?_ _)
        rw [follow, Change.run_bind_of_ok (run_requireConstraint hfind)]
        exact he
      | none =>
        refine goes_of_ok hrun hcoherent hqueue (Follows.single ?_)
        obtain ⟨s', hrun', hs'⟩ := (h.inStep.withProblem (s.caughtUp _).problem).followConstraint
          hid (fun j d hj => h.coherent.key_ne hkey hj) hc
        refine ⟨s', ?_, hs'⟩
        rw [follow, Change.run_bind_of_ok (run_requireConstraint hfind)]
        exact hrun'

theorem Settled.removeConstraint (h : s.Settled) (id : ConstraintId) :
    Goes s (ProblemM.removeConstraint id) none := by
  have hrun := ProblemM.run_removeConstraint s.problem id
  cases hid : s.problem.constraints.find? id with
  | none =>
    rw [hid] at hrun
    exact goes_of_error hrun
  | some c =>
    rw [hid] at hrun
    exact goes_of_ok hrun (h.coherent.without hid) (h.queue_publish (.removeConstraint id c))
      (Follows.single
        ((h.inStep.withProblem _).unfollowConstraint h.coherent.distinct hid))

theorem Settled.setParameter (h : s.Settled) (id : ConstraintId) (x : Parameter) :
    Goes s (ProblemM.setParameter id x)
      (((s.problem.constraints.find? id).bind Constraint.flaw?).map fun _ =>
        .problem .unknownConstraint) := by
  have hrun := ProblemM.run_setParameter s.problem id x
  cases hid : s.problem.constraints.find? id with
  | none =>
    rw [hid] at hrun
    exact goes_of_error hrun
  | some c =>
    rw [hid] at hrun
    dsimp only at hrun
    cases hc' : c.withParameter? x with
    | none =>
      rw [hc'] at hrun
      exact goes_of_error hrun
    | some c' =>
      rw [hc'] at hrun
      -- Only the value changes, so the constraint has the same names and key.
      obtain ⟨hnames, hkey⟩ := Constraint.withParameter?_eq_some hc'
      have hcoherent := h.coherent.setParameter hid hnames hkey
        (s.problem.feed.publish (.setParameter id))
      have hqueue := h.queue_publish (.setParameter id)
      have hfind : (s.problem.constraints.modify id fun _ => c').find? id = some c' := by
        rw [Registry.find?_modify, if_pos rfl, hid]
        rfl
      rw [Option.bind_some]
      cases hc : c.flaw? with
      | some e =>
        obtain ⟨he, hstep⟩ :=
          (h.inStep.withProblem (s.caughtUp _).problem).updateParameter_of_flaw hid hc' hc
        -- There is no cluster to assign to.
        refine goes_of_stumble hrun hcoherent hqueue (hstep.withProblem s.problem)
          (Change.run_bind_of_error ?_ _)
        rw [follow, Change.run_bind_of_ok (run_requireConstraint hfind)]
        exact he
      | none =>
        refine goes_of_ok hrun hcoherent hqueue (Follows.single ?_)
        obtain ⟨s', hrun', hs'⟩ := (h.inStep.withProblem (s.caughtUp _).problem).updateParameter
          h.coherent.distinct hid hc' ((Constraint.flaw?_withParameter? hc').trans hc)
        refine ⟨s', ?_, hs'⟩
        rw [follow, Change.run_bind_of_ok (run_requireConstraint hfind)]
        exact hrun'

/-! ### The start -/

/-- The points of a problem are followed in order. -/
theorem InStep.addPointClusters (l : List (PointName × Vec)) (h : InStep f s)
    (hnd : (f.points.keys ++ l.map Prod.fst).Nodup) :
    Follows (l.forM fun e => Sketch.addPointCluster e.1 e.2) s
      { f with points := l.foldl (fun m e => m.insert e.1 e.2) f.points } := by
  induction l generalizing f s with
  | nil => exact ⟨s, rfl, h, rfl, rfl⟩
  | cons e rest ih =>
    have hnew : e.1 ∉ f.points.keys := fun hmem =>
      (List.nodup_append.1 hnd).2.2 _ hmem _ List.mem_cons_self rfl
    refine (h.addPointCluster hnew e.2).bind fun s' hs' _ _ => ih hs' ?_
    show ((f.points.insert e.1 e.2).keys ++ rest.map Prod.fst).Nodup
    rw [OrderedMap.keys_insert, if_neg hnew, List.append_assoc]
    exact hnd

/-- The constraints of a problem are followed in order, if that succeeds. -/
theorem InStep.followConstraints (l : List (ConstraintId × Constraint)) (h : InStep f s)
    (hnd : (f.constraints.keys ++ l.map Prod.fst).Nodup)
    (hkeys : (f.constraints.entries.map (fun e => e.2.key) ++ l.map fun e => e.2.key).Nodup)
    (hrun : (l.forM fun e => Sketch.followConstraint e.1 e.2).run.run s = (.ok (), s')) :
    (InStep { f with constraints := l.foldl (fun m e => m.insert e.1 e.2) f.constraints } s' ∧
      s'.problem = s.problem ∧ s'.listener = s.listener) ∧ ∀ e ∈ l, e.2.flaw? = none := by
  -- By induction on the constraints, with those followed so far in the figure.
  induction l generalizing f s with
  | nil =>
    cases hrun
    exact ⟨⟨h, rfl, rfl⟩, nofun⟩
  | cons e rest ih =>
    have hnew : e.1 ∉ f.constraints.keys := fun hmem =>
      (List.nodup_append.1 hnd).2.2 _ hmem _ List.mem_cons_self rfl
    have hother : ∀ j d, f.constraints.find? j = some d → d.key ≠ e.2.key := fun j d hj =>
      (List.nodup_append.1 hkeys).2.2 _
        (List.mem_map.2 ⟨(j, d), OrderedMap.find?_eq_some.1 hj, rfl⟩) _ List.mem_cons_self
    cases hc : e.2.flaw? with
    | some failure =>
      -- The first one that names a point twice would have stopped the run.
      have hfailed := (h.followConstraint_of_flaw hnew hc).1
      cases (Change.run_bind_of_error hfailed _).symm.trans hrun
    | none =>
      obtain ⟨s₁, hrun₁, h₁, hproblem, hlistener⟩ := h.followConstraint hnew hother hc
      have hnd' : ((f.constraints.insert e.1 e.2).keys ++ rest.map Prod.fst).Nodup := by
        rw [OrderedMap.keys_insert, if_neg hnew, List.append_assoc]
        exact hnd
      have hkeys' : ((f.constraints.insert e.1 e.2).entries.map (fun e => e.2.key) ++
          rest.map fun e => e.2.key).Nodup := by
        rw [OrderedMap.entries_insert_of_new hnew, List.map_append, List.append_assoc]
        exact hkeys
      obtain ⟨⟨h₂, hproblem₂, hlistener₂⟩, hrest⟩ :=
        ih h₁ hnd' hkeys' ((Change.run_bind_of_ok hrun₁ _).symm.trans hrun)
      exact ⟨⟨h₂, hproblem₂.trans hproblem, hlistener₂.trans hlistener⟩,
        List.forall_mem_cons.2 ⟨hc, hrest⟩⟩

theorem inStep_subscribed (p : Problem) (config : SolverConfig) :
    InStep ⟨.empty, .empty⟩ (subscribed p config) := by
  have hnone : ∀ o, (subscribed p config).holder o = none := fun o => by cases o <;> rfl
  refine ⟨Solver.healthy_withConfig config,
    ⟨fun o => ?_, fun id e he => ?_, fun o _ id ho => ?_⟩, rfl, rfl, rfl, rfl⟩
  · rw [hnone]
    cases o <;> rfl
  · cases he
  · rw [hnone] at ho
    cases ho

/-- A new sketch has followed all that is in its problem. -/
theorem settled_ofProblem {config : SolverConfig} (hp : p.Coherent)
    (h : ofProblem p config = .ok s) :
    s.Settled ∧ ∀ id c, s.problem.constraints.find? id = some c → c.flaw? = none := by
  have hcoherent : p.subscribe.2.Coherent := ⟨hp.graph, hp.index, hp.known⟩
  obtain ⟨s₁, hrun₁, h₁, hproblem₁, hlistener₁⟩ :=
    (inStep_subscribed p config).addPointClusters p.points.entries p.points.nodup
  have hrun : followAll.run.run (subscribed p config) =
      (p.constraints.entries.forM fun e => followConstraint e.1 e.2).run.run s₁ := by
    unfold followAll
    rw [Change.run_get_bind, show (subscribed p config).problem.listing = _ from
      hcoherent.listing_eq]
    exact Change.run_bind_of_ok hrun₁ _
  unfold ofProblem at h
  rw [hrun] at h
  split at h
  · rename_i s' hrest
    cases h
    obtain ⟨⟨h₂, hproblem, hlistener⟩, hproper⟩ :=
      h₁.followConstraints p.constraints.entries p.constraints.nodup_keys hp.nodup hrest
    have hproblem : s.problem = p.subscribe.2 := hproblem.trans hproblem₁
    have hlistener : s.listener = p.subscribe.1 := hlistener.trans hlistener₁
    -- All entries have been inserted, which gives the maps again.
    have hfigure : p.subscribe.2.figure =
        ⟨.ofList p.points.entries, .ofList p.constraints.store.entries⟩ := by
      rw [OrderedMap.ofList_entries, OrderedMap.ofList_entries]
      rfl
    refine ⟨⟨?_, ?_, ?_, ?_⟩, fun id c hid => ?_⟩
    · rw [hproblem, hfigure]
      exact h₂
    · rw [hproblem]
      exact hcoherent
    · rw [hproblem, hlistener]
      exact Registry.contains_iff.2 (Registry.mem_keys_of_find? (a := [])
        (Registry.find?_insert_eq_some.2 (.inr ⟨rfl, rfl⟩)))
    · rw [hproblem, hlistener]
      exact Feed.queue_subscribe ..
    · rw [hproblem] at hid
      exact hproper (id, c) (Registry.find?_eq_some.1 hid)
  · cases h

/-! ### Runs -/

/-- A call of a sketch that may change it. -/
inductive Operation where
  | addPoint (v : PointName) (position : Vec)
  | removePoint (v : PointName)
  | setPoint (v : PointName) (position : Vec)
  | addConstraint (c : Constraint)
  | removeConstraint (id : ConstraintId)
  | setParameter (id : ConstraintId) (x : Parameter)

/-- What a call asks of the problem. -/
def Operation.onProblem : Operation → Problem.Operation
  | .addPoint v q => .addPoint v q
  | .removePoint v => .removePoint v
  | .setPoint v q => .setPoint v q
  | .addConstraint c => .addConstraint c
  | .removeConstraint id => .removeConstraint id
  | .setParameter id x => .setParameter id x

/-- The sketch after a call, whatever the call returns. -/
def perform (s : Sketch) : Operation → Sketch
  | .addPoint v q => ((addPoint v q).run.run s).2
  | .removePoint v => ((removePoint v).run.run s).2
  | .setPoint v q => ((setPoint v q).run.run s).2
  | .addConstraint c => ((addConstraint c).run.run s).2
  | .removeConstraint id => ((removeConstraint id).run.run s).2
  | .setParameter id x => ((setParameter id x).run.run s).2

/-- Whether a call succeeds, or why it fails. -/
def reply (s : Sketch) : Operation → Except SketchError Unit
  | .addPoint v q => ((addPoint v q).run.run s).1
  | .removePoint v => ((removePoint v).run.run s).1
  | .setPoint v q => ((setPoint v q).run.run s).1
  | .addConstraint c => ((addConstraint c).run.run s).1.map fun _ => ()
  | .removeConstraint id => ((removeConstraint id).run.run s).1.map fun _ => ()
  | .setParameter id x => ((setParameter id x).run.run s).1

/-- How a call fails that is about an angle that names a point twice, if the problem accepts it. -/
def Operation.failure? (p : Problem) : Operation → Option SketchError
  | .addConstraint c => c.flaw?.map .cluster
  | .setParameter id _ =>
    ((p.constraints.find? id).bind Constraint.flaw?).map fun _ => .problem .unknownConstraint
  | _ => none

/-- How a call goes: it fails at once if the problem refuses it, and succeeds if the problem accepts
it, unless it stumbles over such an angle.  Then just the problem is changed. -/
structure Outcome (s : Sketch) (op : Operation) : Prop where
  refused : ∀ e, s.problem.reply op.onProblem = .error e →
    s.reply op = .error (.problem e) ∧ s.perform op = s
  accepted : s.problem.reply op.onProblem = .ok () → op.failure? s.problem = none →
    s.reply op = .ok () ∧
      (s.perform op).problem = (s.caughtUp (s.problem.perform op.onProblem)).problem
  stumbled : ∀ e, s.problem.reply op.onProblem = .ok () → op.failure? s.problem = some e →
    s.reply op = .error e ∧ s.perform op = s.caughtUp (s.problem.perform op.onProblem)

theorem map_eq_ok {ε β : Type} {r : Except ε β} :
    (r.map fun _ => ()) = .ok () ↔ ∃ b, r = .ok b := by
  cases r with
  | ok b => exact ⟨fun _ => ⟨b, rfl⟩, fun _ => rfl⟩
  | error e => exact ⟨nofun, fun ⟨_, hb⟩ => nomatch hb⟩

theorem map_eq_error {ε β : Type} {r : Except ε β} {e : ε} :
    (r.map fun _ => ()) = .error e ↔ r = .error e := by
  cases r with
  | ok b => exact ⟨nofun, nofun⟩
  | error e' =>
    exact ⟨fun h => congrArg _ (Except.error.inj h), fun h => congrArg _ (Except.error.inj h)⟩

/-- A call goes as the change of the problem goes that it makes. -/
theorem Goes.outcome {op : Operation} (h : Goes s x (op.failure? s.problem)) (hs : s.Settled)
    (hproblem : s.problem.perform op.onProblem = (x.run.run s.problem).2)
    (hreply : s.problem.reply op.onProblem = (x.run.run s.problem).1.map fun _ => ())
    (hperform : s.perform op = ((change x).run.run s).2)
    (hanswer : s.reply op = ((change x).run.run s).1.map fun _ => ()) :
    (s.perform op).Settled ∧ Outcome s op := by
  refine ⟨?_, fun e he => ?_, fun hok hnone => ?_, fun e hok hfails => ?_⟩
  · rw [hperform]
    -- Refused, stumbled or accepted: each leaves a settled sketch.
    cases hx : (x.run.run s.problem).1 with
    | error e =>
      rw [h.refused e hx]
      exact hs
    | ok a =>
      cases hfailure : op.failure? s.problem with
      | some e =>
        obtain ⟨hrun, hs'⟩ := h.stumbled a e hx hfailure
        rw [hrun]
        exact hs'
      | none =>
        obtain ⟨s', hrun, hs', -⟩ := h.accepted a hx hfailure
        rw [hrun]
        exact hs'
  · -- A call that the problem refuses is not followed.
    rw [hreply, map_eq_error] at he
    rw [hanswer, hperform, h.refused e he]
    exact ⟨rfl, rfl⟩
  · -- One that is accepted is followed to its end.
    rw [hreply, map_eq_ok] at hok
    obtain ⟨a, ha⟩ := hok
    obtain ⟨s', hrun, -, hs'⟩ := h.accepted a ha hnone
    rw [hanswer, hperform, hrun, hproblem]
    exact ⟨rfl, hs'⟩
  · -- One that stumbles leaves the problem changed and the solver behind.
    rw [hreply, map_eq_ok] at hok
    obtain ⟨a, ha⟩ := hok
    obtain ⟨hrun, -⟩ := h.stumbled a e ha hfails
    rw [hanswer, hperform, hrun, hproblem]
    exact ⟨rfl, rfl⟩

theorem map_unit {ε : Type} (r : Except ε Unit) : r = r.map fun _ => () := by
  cases r <;> rfl

/-- Every call leaves a sketch with nothing to follow. -/
theorem Settled.perform (h : s.Settled) (op : Operation) :
    (s.perform op).Settled ∧ Outcome s op := by
  cases op with
  | addPoint v q => exact (h.addPoint v q).outcome h rfl (map_unit _) rfl (map_unit _)
  | setPoint v q => exact (h.setPoint v q).outcome h rfl (map_unit _) rfl (map_unit _)
  | removePoint v =>
    -- The removal of a point discards the reply of the problem.
    have hrun : (Sketch.removePoint v).run.run s =
        (((change (ProblemM.removePoint v)).run.run s).1.map fun _ => (),
          ((change (ProblemM.removePoint v)).run.run s).2) := by
      rw [Sketch.removePoint, Change.run_bind]
      cases (change (ProblemM.removePoint v)).run.run s with
      | mk r s' => cases r <;> rfl
    exact (h.removePoint v).outcome h rfl rfl (congrArg Prod.snd hrun)
      (congrArg Prod.fst hrun)
  | addConstraint c => exact (h.addConstraint c).outcome h rfl rfl rfl rfl
  | removeConstraint id => exact (h.removeConstraint id).outcome h rfl rfl rfl rfl
  | setParameter id x =>
    exact (h.setParameter id x).outcome h rfl (map_unit _) rfl (map_unit _)

/-- The sketches that are made of some problem and changed by calls that meet a condition. -/
inductive Reached (admitted : Sketch → Operation → Prop) : Sketch → Prop
  | start {pops : List Problem.Operation} {config : SolverConfig} {s : Sketch}
      (h : ofProblem (Problem.run pops) config = .ok s) : Reached admitted s
  | perform {s : Sketch} {op : Operation} (h : Reached admitted s) (hop : admitted s op) :
      Reached admitted (s.perform op)

theorem Reached.settled {admitted : Sketch → Operation → Prop} (h : Reached admitted s) :
    s.Settled := by
  induction h with
  | start h => exact (settled_ofProblem (Problem.coherent_run _) h).1
  | perform _ _ ih => exact (ih.perform _).1

/-- The call succeeds, or it is the problem that refuses it. -/
def Handles (s : Sketch) (op : Operation) : Prop :=
  s.reply op = .ok () ∨ ∃ e, s.reply op = .error (.problem e)

/-- A call that does not stumble brings no angle that names a point twice. -/
theorem flaw?_perform {op : Operation} (hp : p.Coherent)
    (h : ∀ id c, p.constraints.find? id = some c → c.flaw? = none) (hop : op.failure? p = none)
    (hid : (p.perform op.onProblem).constraints.find? id = some c) : c.flaw? = none := by
  -- Constraints come in by one call only, and a new value leaves the names as they are.
  cases op with
  | addPoint v q =>
    rw [Operation.onProblem, Problem.perform, ProblemM.run_addPoint] at hid
    split at hid <;> exact h id c hid
  | setPoint v q =>
    rw [Operation.onProblem, Problem.perform, ProblemM.run_setPoint] at hid
    split at hid <;> exact h id c hid
  | removePoint v =>
    rw [Operation.onProblem, Problem.perform, hp.run_removePoint] at hid
    split at hid
    · replace hid : ((p.entriesOn v).foldl Problem.without p).constraints.find? id = some c := hid
      have hmem := Registry.find?_eq_some.1 hid
      rw [Problem.entries_foldl_without] at hmem
      exact h id c (Registry.find?_eq_some.2 (List.mem_filter.1 hmem).1)
    · exact h id c hid
  | addConstraint d =>
    rw [Operation.onProblem, Problem.perform, ProblemM.run_addConstraint] at hid
    split at hid
    · exact h id c hid
    · split at hid
      · exact h id c hid
      · rcases Registry.find?_insert_eq_some.1 hid with hid | ⟨-, rfl⟩
        · exact h id c hid
        · exact Option.map_eq_none_iff.1 hop
  | removeConstraint i =>
    rw [Operation.onProblem, Problem.perform, ProblemM.run_removeConstraint] at hid
    split at hid
    · exact h id c hid
    · exact h id c (Registry.find?_erase_eq_some.1 hid).2
  | setParameter i x =>
    rw [Operation.onProblem, Problem.perform, ProblemM.run_setParameter] at hid
    split at hid
    · exact h id c hid
    · rename_i d hd
      split at hid
      · exact h id c hid
      · rename_i d' hd'
        replace hid : (p.constraints.modify i fun _ => d').find? id = some c := hid
        rw [Registry.find?_modify] at hid
        split at hid
        · rename_i he
          subst he
          rw [hd] at hid
          obtain rfl := Option.some_inj.1 hid
          exact (Constraint.flaw?_withParameter? hd').trans (h i d hd)
        · exact h id c hid

/-- Where no call stumbles, every distance and every angle has a cluster. -/
theorem Reached.flaw? (h : Reached Handles s) (hid : s.problem.constraints.find? id = some c) :
    c.flaw? = none := by
  induction h generalizing id c with
  | start h => exact (settled_ofProblem (Problem.coherent_run _) h).2 id c hid
  | @perform s op h hop ih =>
    obtain ⟨-, hout⟩ := h.settled.perform op
    cases hreply : s.problem.reply op.onProblem with
    | error e =>
      rw [(hout.refused e hreply).2] at hid
      exact ih hid
    | ok u =>
      -- A call that stumbles does not blame the problem, unless the angle was there before.
      have hnone : op.failure? s.problem = none := by
        cases hfailure : op.failure? s.problem with
        | none => rfl
        | some e =>
          obtain ⟨hfailed, -⟩ := hout.stumbled e hreply hfailure
          rcases hop with hok | ⟨e', he'⟩
          · cases hok.symm.trans hfailed
          · cases he'.symm.trans hfailed
            cases op with
            | addConstraint d =>
              obtain ⟨e, -, he⟩ := Option.map_eq_some_iff.1 hfailure
              cases he
            | setParameter i x =>
              obtain ⟨e, he, -⟩ := Option.map_eq_some_iff.1 hfailure
              obtain ⟨d, hd, he⟩ := Option.bind_eq_some_iff.1 he
              cases (ih hd).symm.trans he
            | addPoint v q => cases hfailure
            | removePoint v => cases hfailure
            | setPoint v q => cases hfailure
            | removeConstraint i => cases hfailure
      rw [(hout.accepted hreply hnone).2] at hid
      exact flaw?_perform h.settled.coherent (fun i d hd => ih hd) hnone hid

/-- The clusters that were added to the solver, each with its only candidate, are just those that
stand for the points, the distances, the angles and the fixed points of the problem; `hold` tells
which is which. -/
structure Portrays (hold : Origin → Option ClusterId) (s : Sketch) : Prop where
  /-- No cluster stands for two things, and each stands for something. -/
  injective : ∀ o o' id, hold o = some id → hold o' = some id → o = o'
  added : ∀ id, (∃ e, s.solver.stock id = some e) ↔ ∃ o, hold o = some id
  /-- A point is a rigid of one point at its place. -/
  point : ∀ v, (∃ id, hold (.point v) = some id) ↔ v ∈ s.problem.points.keys
  point_stock : ∀ v q id, s.problem.points.find? v = some q → hold (.point v) = some id →
    s.solver.stock id = some (.rigid (.ofList [v]), some [.single v q])
  /-- Just distances and angles have clusters of their own. -/
  constraint : ∀ i, (∃ id, hold (.constraint i) = some id) ↔
    ∃ a b, (∃ x, s.problem.constraints.find? i = some (.distance a b x)) ∨
      ∃ c x, s.problem.constraints.find? i = some (.angle a b c x)
  /-- A distance is a rigid on its two points, which may be the same. -/
  distance_stock : ∀ i a b x id, s.problem.constraints.find? i = some (.distance a b x) →
    hold (.constraint i) = some id →
      s.solver.stock id = some (.rigid (.ofList [a, b]), some [distanceConfiguration a b x])
  /-- An angle is a hedgehog with two arms. -/
  angle_stock : ∀ i a b c x id, s.problem.constraints.find? i = some (.angle a b c x) →
    hold (.constraint i) = some id → (a ≠ b ∧ b ≠ c ∧ a ≠ c) ∧
      s.solver.stock id = some (.hedgehog b (.ofList [a, c]), some [angleConfiguration a b c x])
  /-- The fixed points are one rigid, which is the root, if there are any. -/
  root : s.solver.decomposition.root = hold .fixes
  fixes : (∃ id, hold .fixes = some id) ↔
    ∃ i v q, s.problem.constraints.find? i = some (.fix v q)
  fixes_stock : ∀ id, hold .fixes = some id →
    let fixes := s.problem.constraints.values.filterMap Constraint.fix?
    s.solver.stock id = some (.rigid (.ofList (fixes.map Prod.fst)), some [.ofList fixes])
  /-- The solver knows the points as drawn and the questions. -/
  prototypes : s.solver.prototypes = s.problem.points
  selection : s.solver.selection.toList =
    s.problem.constraints.values.filterMap Constraint.selection?

theorem Settled.portrays (h : s.Settled)
    (hproper : ∀ id c, s.problem.constraints.find? id = some c → c.flaw? = none) :
    s.Portrays s.holder := by
  have hheld := h.inStep.holding
  -- What an origin holds stands in the solver with the one configuration of its piece.
  have hpiece {o : Origin} {id : ClusterId} {e : Cluster × Configuration}
      (ho : s.holder o = some id) (he : s.problem.figure.piece? o = some e) :
      s.solver.stock id = some (e.1, some [e.2]) := by
    obtain ⟨e', he', hstock⟩ := hheld.stock_of_hold ho
    rw [Option.some_inj.1 (he.symm.trans he')]
    exact hstock
  have hconstraint {i : ConstraintId} {c : Constraint}
      (hi : s.problem.constraints.find? i = some c) :
      s.problem.figure.piece? (.constraint i) = c.piece? :=
    congrArg (Option.bind · Constraint.piece?) hi
  -- An origin holds a cluster if and only if it has a piece.
  have hexists (o : Origin) :
      (∃ id, s.holder o = some id) ↔ ∃ e, s.problem.figure.piece? o = some e := by
    rw [← Option.ne_none_iff_exists', ← Option.ne_none_iff_exists', ne_eq, ne_eq, hheld.eq_none_iff]
  refine ⟨hheld.injective, fun id => ⟨fun ⟨e, he⟩ => hheld.exists_hold id e he, ?_⟩, fun v => ?_,
    fun v q id hq ho => hpiece ho (piece?_point hq), fun i => ?_,
    fun i a b x id hi ho => ?_, fun i a b c x id hi ho => ?_, h.inStep.root, ?_, fun id ho => ?_,
    h.inStep.prototypes, h.inStep.selection⟩
  · rintro ⟨o, ho⟩
    obtain ⟨e, -, he⟩ := hheld.stock_of_hold ho
    exact ⟨_, he⟩
  · -- A point has a piece as long as it is there.
    rw [hexists, Figure.piece?]
    constructor
    · rintro ⟨e, he⟩
      obtain ⟨q, hq, -⟩ := Option.map_eq_some_iff.1 he
      exact List.mem_map_of_mem (OrderedMap.find?_eq_some.1 hq)
    · intro hv
      obtain ⟨q, hq⟩ := OrderedMap.exists_find? hv
      exact ⟨_, piece?_point hq⟩
  · -- Of the constraints, distances have pieces, and so have angles.
    rw [hexists]
    constructor
    · rintro ⟨⟨o, conf⟩, he⟩
      obtain ⟨c, hc, he⟩ := Option.bind_eq_some_iff.1 he
      obtain ⟨a, b, x, rfl, -⟩ | ⟨a, b, c, x, rfl, -⟩ := Constraint.cases_of_piece? he
      · exact ⟨a, b, .inl ⟨x, hc⟩⟩
      · exact ⟨a, b, .inr ⟨c, x, hc⟩⟩
    · rintro ⟨a, b, ⟨x, hi⟩ | ⟨c, x, hi⟩⟩
      · exact ⟨_, hconstraint hi⟩
      · -- No angle here names a point twice, so each has a piece.
        have hne := Constraint.flaw?_angle_eq_none.1 (hproper i _ hi)
        exact ⟨_, (hconstraint hi).trans (if_pos hne)⟩
  · exact hpiece ho (hconstraint hi)
  · have hne := Constraint.flaw?_angle_eq_none.1 (hproper i _ hi)
    exact ⟨hne, hpiece ho ((hconstraint hi).trans (if_pos hne))⟩
  · -- All fixes together have one piece, which is there as soon as one fix is.
    rw [hexists]
    constructor
    · rintro ⟨e, he⟩
      cases hfixes : s.problem.figure.fixes with
      | nil =>
        rw [Figure.piece?, hfixes] at he
        cases he
      | cons d rest =>
        obtain ⟨i, hi⟩ := Figure.mem_fixes.1 (hfixes ▸ List.mem_cons_self : d ∈ _)
        exact ⟨i, d.1, d.2, hi⟩
    · rintro ⟨i, v, q, hi⟩
      have hmem : (v, q) ∈ s.problem.figure.fixes := Figure.mem_fixes.2 ⟨i, hi⟩
      exact ⟨_, Figure.anchor?_of_ne_nil (List.ne_nil_of_mem hmem)⟩
  · obtain ⟨e, he⟩ := (hexists .fixes).1 ⟨id, ho⟩
    have hne : s.problem.figure.fixes ≠ [] := by
      intro hnil
      rw [Figure.piece?, hnil] at he
      cases he
    exact hpiece ho (Figure.anchor?_of_ne_nil hne)

theorem ofProblem_eq_ok {config : SolverConfig} (h : (ofProblem p config).isOk = true) :
    ofProblem p config = .ok (followAll.run.run (subscribed p config)).2 := by
  unfold ofProblem at h ⊢
  cases hrun : followAll.run.run (subscribed p config) with
  | mk r s' =>
    rw [hrun] at h
    cases r with
    | ok u => rfl
    | error e => cases h

theorem handles_of_isOk {op : Operation} (h : (s.reply op).isOk = true) : Handles s op := by
  cases hr : s.reply op with
  | ok u => exact .inl hr
  | error e =>
    rw [hr] at h
    cases h

theorem exists_error_of_isOk {ε β : Type} {r : Except ε β} (h : r.isOk = false) :
    ∃ e, r = .error e := by
  cases r with
  | ok b => cases h
  | error e => exact ⟨e, rfl⟩

theorem exists_ok_of_isOk {ε β : Type} {r : Except ε β} (h : r.isOk = true) : ∃ b, r = .ok b := by
  cases r with
  | ok b => exact ⟨b, rfl⟩
  | error e => cases h

/-- After every run in which each call succeeded or was refused by the problem, the solver has been
given what the problem shows and nothing else. -/
theorem portrays_run (h : Reached Handles s) : ∃ hold, s.Portrays hold :=
  ⟨s.holder, h.settled.portrays fun _ _ hid => h.flaw? hid⟩

/-- A run with a fixed point, a distance and an angle. -/
theorem portrays_run_wedge :
    ∃ s, Reached Handles s ∧ s.problem.constraints.size = 3 ∧ ∃ hold, s.Portrays hold := by
  let pops : List Problem.Operation := [.addPoint "a" .zero, .addPoint "b" ⟨4.0, 0.0⟩,
    .addPoint "c" ⟨0.0, 3.0⟩, .addConstraint (.fix "a" .zero)]
  let s₀ := (followAll.run.run (subscribed (Problem.run pops) {})).2
  let s₁ := s₀.perform (.addConstraint (.distance "a" "b" 5.0))
  have h₀ : ofProblem (Problem.run pops) {} = .ok s₀ := ofProblem_eq_ok (by decide +kernel)
  have h₁ : Handles s₀ (.addConstraint (.distance "a" "b" 5.0)) :=
    handles_of_isOk (by decide +kernel)
  have h₂ : Handles s₁ (.addConstraint (.angle "a" "b" "c" 1.0)) :=
    handles_of_isOk (by decide +kernel)
  exact ⟨_, ((Reached.start h₀).perform h₁).perform h₂, by decide +kernel,
    portrays_run (((Reached.start h₀).perform h₁).perform h₂)⟩

/-- The points of a distance may be one, and then no rigid of two points stands for it. -/
theorem exists_distance_without_pair :
    ¬∀ s, Reached Handles s → ∀ i a b x, s.problem.constraints.find? i = some (.distance a b x) →
      ∃ id o v, s.solver.stock id = some (o, v) ∧ o.isRigid = true ∧ o.points.size = 2 := by
  intro h
  let s₀ := (followAll.run.run (subscribed (Problem.run [.addPoint "a" .zero]) {})).2
  let s := s₀.perform (.addConstraint (.distance "a" "a" 5.0))
  have h₀ : ofProblem (Problem.run [.addPoint "a" .zero]) {} = .ok s₀ :=
    ofProblem_eq_ok (by decide +kernel)
  have h₁ : Handles s₀ (.addConstraint (.distance "a" "a" 5.0)) :=
    handles_of_isOk (by decide +kernel)
  have hsmall : ∀ e ∈ s.solver.decomposition.clusters.entries, e.2.cluster.points.size = 1 := by
    decide +kernel
  have hkey : (s.problem.constraints.find? ⟨1⟩).map Constraint.key =
      some (.distance ⟨"a", "a"⟩) := by
    decide +kernel
  obtain ⟨c, hc, hkey⟩ := Option.map_eq_some_iff.1 hkey
  obtain ⟨a, b, x, rfl⟩ : ∃ a b x, c = .distance a b x := by
    cases c with
    | distance a b x => exact ⟨a, b, x, rfl⟩
    | angle a b c x => cases hkey
    | fix v q => cases hkey
    | selection t => cases hkey
  -- A rigid of two points would be among the clusters of the solver.
  obtain ⟨id, o, v, hstock, -, hsize⟩ := h s ((Reached.start h₀).perform h₁) ⟨1⟩ a b x hc
  have hcluster := (Decomposition.added?_eq_some.1 (Solver.stock_eq_some.1 hstock).1).1
  obtain ⟨node, hnode, rfl⟩ := Option.map_eq_some_iff.1 hcluster
  have hone := hsmall (id, node) (Registry.find?_eq_some.1 hnode)
  rw [hsize] at hone
  cases hone

/-- A call that the problem refuses changes nothing.  One that it accepts succeeds, unless it is
about an angle that names a point twice: then it fails, with the solver and all that stands for the
problem as they were, and just the problem is changed. -/
theorem failed_call_run (h : Reached (fun _ _ => True) s) (op : Operation) :
    (∀ e, s.problem.reply op.onProblem = .error e →
      s.reply op = .error (.problem e) ∧ s.perform op = s) ∧
    (s.problem.reply op.onProblem = .ok () → op.failure? s.problem = none → s.reply op = .ok ()) ∧
    ∀ e, s.problem.reply op.onProblem = .ok () → op.failure? s.problem = some e →
      s.reply op = .error e ∧
        s.perform op =
          { s with problem := ((s.problem.perform op.onProblem).drain s.listener).2 } := by
  obtain ⟨-, hout⟩ := h.settled.perform op
  exact ⟨hout.refused, fun hok hnone => (hout.accepted hok hnone).1, hout.stumbled⟩

/-- An angle from a point to itself. -/
theorem failed_call_run_angle :
    ∃ s op, Reached (fun _ _ => True) s ∧ (∃ e, s.reply op = .error e) ∧
      (s.perform op).problem.constraints.size = 1 ∧ (s.perform op).solver = s.solver := by
  let pops : List Problem.Operation := [.addPoint "a" .zero, .addPoint "b" ⟨1.0, 0.0⟩]
  let s := (followAll.run.run (subscribed (Problem.run pops) {})).2
  have h : Reached (fun _ _ => True) s := .start (ofProblem_eq_ok (by decide +kernel))
  obtain ⟨e, he⟩ : ∃ e, (Operation.addConstraint (.angle "a" "b" "a" 1.0)).failure? s.problem =
    some e := Option.isSome_iff_exists.1 (by decide +kernel)
  obtain ⟨⟨⟩, hok⟩ : ∃ u, s.problem.reply (.addConstraint (.angle "a" "b" "a" 1.0)) = .ok u :=
    exists_ok_of_isOk (by decide +kernel)
  obtain ⟨hreply, hperform⟩ :=
    (failed_call_run h (.addConstraint (.angle "a" "b" "a" 1.0))).2.2 e hok he
  refine ⟨s, .addConstraint (.angle "a" "b" "a" 1.0), h, ⟨e, hreply⟩, by decide +kernel, ?_⟩
  rw [hperform]

/-- A call that fails may have added a constraint. -/
theorem exists_failed_call_with_change :
    ¬∀ s, Reached (fun _ _ => True) s → ∀ op e, s.reply op = .error e →
      (s.perform op).problem.points = s.problem.points ∧
        (s.perform op).problem.constraints = s.problem.constraints ∧
        (s.perform op).solver.decomposition = s.solver.decomposition := by
  intro h
  let pops : List Problem.Operation := [.addPoint "a" .zero, .addPoint "b" ⟨1.0, 0.0⟩]
  let s := (followAll.run.run (subscribed (Problem.run pops) {})).2
  have hs : Reached (fun _ _ => True) s := .start (ofProblem_eq_ok (by decide +kernel))
  obtain ⟨e, he⟩ : ∃ e, s.reply (.addConstraint (.angle "a" "b" "a" 1.0)) = .error e :=
    exists_error_of_isOk (by decide +kernel)
  have hsame := congrArg Registry.size (h s hs _ e he).2.1
  have hdiffer : (s.perform (.addConstraint (.angle "a" "b" "a" 1.0))).problem.constraints.size ≠
      s.problem.constraints.size := by decide +kernel
  exact hdiffer hsame

end Sketch

end PlanarSketch
