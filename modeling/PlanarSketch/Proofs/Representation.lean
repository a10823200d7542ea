/-
Problems keep their views in step.

The points, the constraints under their handles, the constraints by what they
say, and the graph of both are changed one after the other.  After a change
that is accepted they tell of the same points and constraints again, in the
same order, and one that is refused has touched none of them.

* `Constraint.Equivalent`, `Constraint.key_eq_iff`: when two constraints say
  the same thing;
* `ProblemM.run_addConstraint`, `Coherent.run_removePoint` and the like: what
  each change does;
* `Coherent`: the views agree, kept by every change (`Coherent.perform`);
* `representation_run`: the views agree after every run, and a change that is
  refused leaves the problem as it was.
-/
import Mathlib.Data.List.Nodup
import PlanarSketch.Problem.Basic
import PlanarSketch.Proofs.Adjacency

namespace PlanarSketch

/-! ### What constraints say -/

theorem Distance.between_eq_iff {a b a' b' : PointName} :
    between a b = between a' b' ↔ a = a' ∧ b = b' ∨ a = b' ∧ b = a' := by
  have hswap : between a b = between b a := by
    unfold between
    by_cases h : a ≤ b
    · by_cases h' : b ≤ a
      · simp [String.le_antisymm h h']
      · simp [h, h']
    · simp [h, (String.le_total a b).resolve_left h]
  constructor
  · intro h
    unfold between at h
    split at h <;> split at h <;> simp_all
  · rintro (⟨rfl, rfl⟩ | ⟨rfl, rfl⟩)
    · rfl
    · exact hswap

theorem Angle.between_eq_iff {a b c a' b' c' : PointName} :
    between a b c = between a' b' c' ↔ b = b' ∧ (a = a' ∧ c = c' ∨ a = c' ∧ c = a') := by
  have hpair : ∀ a b c, between a b c =
      ⟨(Distance.between a c).a, b, (Distance.between a c).b⟩ := by
    intro a b c
    unfold between Distance.between
    split <;> rfl
  rw [← Distance.between_eq_iff, hpair, hpair, Angle.mk.injEq]
  cases Distance.between a c
  cases Distance.between a' c'
  simp only [Distance.mk.injEq]
  exact and_left_comm

/-- Two constraints say the same thing, up to their numbers: they relate the same points, where
neither the order of the points of a distance matters nor that of the outer points of an angle. -/
inductive Constraint.Equivalent : Constraint → Constraint → Prop
  | distance (a b : PointName) (x y : Float) : Equivalent (.distance a b x) (.distance a b y)
  | distanceTurned (a b : PointName) (x y : Float) : Equivalent (.distance a b x) (.distance b a y)
  | angle (a b c : PointName) (x y : Float) : Equivalent (.angle a b c x) (.angle a b c y)
  | angleTurned (a b c : PointName) (x y : Float) : Equivalent (.angle a b c x) (.angle c b a y)
  | fix (v : PointName) (p q : Vec) : Equivalent (.fix v p) (.fix v q)
  | selection (s : SelectionConstraint) : Equivalent (.selection s) (.selection s)

theorem Constraint.key_eq_iff {c d : Constraint} : c.key = d.key ↔ c.Equivalent d := by
  constructor
  · intro h
    -- Constraints of different kinds have different keys; distances and angles may be turned.
    cases c <;> cases d <;> simp only [key, ConstraintKey.distance.injEq,
      ConstraintKey.angle.injEq, ConstraintKey.fix.injEq, ConstraintKey.selection.injEq,
      Distance.between_eq_iff, Angle.between_eq_iff, reduceCtorEq] at h
    · rcases h with ⟨rfl, rfl⟩ | ⟨rfl, rfl⟩
      · exact .distance ..
      · exact .distanceTurned ..
    · obtain ⟨rfl, ⟨rfl, rfl⟩ | ⟨rfl, rfl⟩⟩ := h
      · exact .angle ..
      · exact .angleTurned ..
    · subst h
      exact .fix ..
    · subst h
      exact .selection ..
  · intro h
    cases h with
    | distance a b x y => rfl
    | distanceTurned a b x y =>
      exact congrArg ConstraintKey.distance (Distance.between_eq_iff.2 (.inr ⟨rfl, rfl⟩))
    | angle a b c x y => rfl
    | angleTurned a b c x y =>
      exact congrArg ConstraintKey.angle (Angle.between_eq_iff.2 ⟨rfl, .inr ⟨rfl, rfl⟩⟩)
    | fix v p q => rfl
    | selection s => rfl

/-- Another number is no other statement. -/
theorem Constraint.withParameter?_eq_some {c c' : Constraint} {x : Parameter}
    (h : c.withParameter? x = some c') : c'.names = c.names ∧ c'.key = c.key := by
  cases c <;> cases x <;> cases h <;> exact ⟨rfl, rfl⟩

theorem OrderedMap.entries_modify {α β : Type} [DecidableEq α] (m : OrderedMap α β) (k : α)
    (f : β → β) :
    (m.modify k f).entries = m.entries.map fun e => if e.1 = k then (e.1, f e.2) else e := by
  have hnone : ∀ l : List (α × β), k ∉ l.map Prod.fst →
      l.map (fun e => if e.1 = k then (e.1, f e.2) else e) = l := by
    intro l hl
    refine (List.map_congr_left fun e he => if_neg fun hk => hl ?_).trans (List.map_id _)
    exact List.mem_map.2 ⟨e, he, hk⟩
  -- Keys stand once, so the value is placed at a single entry.
  have hplace : ∀ (l : List (α × β)) (v : β), (l.map Prod.fst).Nodup → (k, v) ∈ l →
      place k (f v) l = l.map fun e => if e.1 = k then (e.1, f e.2) else e := by
    intro l v hnd hv
    induction l with
    | nil => cases hv
    | cons e rest ih =>
      obtain ⟨hnew, hrest⟩ := List.nodup_cons.1 hnd
      rcases List.mem_cons.1 hv with rfl | hv
      · rw [place, if_pos rfl, List.map_cons, if_pos rfl, hnone rest hnew]
      · have hne : e.1 ≠ k := fun he => hnew (he ▸ List.mem_map_of_mem hv)
        rw [place, if_neg hne, List.map_cons, if_neg hne, ih hrest hv]
  unfold modify
  split
  · rename_i v hv
    exact hplace m.entries v m.nodup (find?_eq_some.1 hv)
  · rename_i hk
    exact (hnone m.entries (find?_eq_none.1 hk)).symm

/-! ### One change -/

namespace ProblemM

variable {p : Problem} {v : PointName} {id : ConstraintId} {c : Constraint}

theorem run_addPoint (p : Problem) (v : PointName) (q : Vec) :
    (addPoint v q).run.run p =
      if p.points.contains v then (.error (.duplicatePoint v), p)
      else (.ok (), { p with
        points := p.points.insert v q
        graph := p.graph.addPoint v
        feed := p.feed.publish (.addPoint v) }) := by
  unfold addPoint
  rw [Change.run_get_bind]
  split <;> rfl

theorem run_setPoint (p : Problem) (v : PointName) (q : Vec) :
    (setPoint v q).run.run p =
      if p.points.contains v then (.ok (), { p with
        points := p.points.insert v q
        feed := p.feed.publish (.setPoint v) })
      else (.error (.unknownPoint v), p) := by
  unfold setPoint
  rw [Change.run_get_bind]
  split <;> rfl

theorem run_addConstraint (p : Problem) (c : Constraint) :
    (addConstraint c).run.run p =
      match c.names.find? fun v => !p.points.contains v with
      | some v => (.error (.unknownVariable v), p)
      | none =>
        if p.index.contains c.key then (.error .duplicateConstraint, p)
        else (.ok p.constraints.nextKey, { p with
          constraints := p.constraints.insert c
          index := p.index.insert c.key p.constraints.nextKey
          graph := p.graph.addConstraint p.constraints.nextKey c.names
          feed := p.feed.publish (.addConstraint p.constraints.nextKey) }) := by
  unfold addConstraint
  rw [Change.run_get_bind]
  cases c.names.find? fun v => !p.points.contains v with
  | some v => rfl
  | none =>
    cases p.index.contains c.key with
    | true => rfl
    | false => rfl

end ProblemM

namespace Problem

/-- The problem without a constraint, as published. -/
def without (p : Problem) (e : ConstraintId × Constraint) : Problem :=
  { p with
    constraints := p.constraints.erase e.1
    index := p.index.erase e.2.key
    graph := p.graph.removeConstraint e.1
    feed := p.feed.publish (.removeConstraint e.1 e.2) }

end Problem

namespace ProblemM

variable {p : Problem} {v : PointName} {id : ConstraintId} {c : Constraint}

theorem run_removeConstraint (p : Problem) (id : ConstraintId) :
    (removeConstraint id).run.run p =
      match p.constraints.find? id with
      | none => (.error .unknownConstraint, p)
      | some c => (.ok c, p.without (id, c)) := by
  unfold removeConstraint
  rw [Change.run_get_bind]
  cases p.constraints.find? id with
  | none => rfl
  | some c => rfl

theorem run_setParameter (p : Problem) (id : ConstraintId) (x : Parameter) :
    (setParameter id x).run.run p =
      match p.constraints.find? id with
      | none => (.error .unknownConstraint, p)
      | some c =>
        match c.withParameter? x with
        | none => (.error .parameterMismatch, p)
        | some c' => (.ok (), { p with
          constraints := p.constraints.modify id fun _ => c'
          feed := p.feed.publish (.setParameter id) }) := by
  unfold setParameter
  rw [Change.run_get_bind]
  cases p.constraints.find? id with
  | none => rfl
  | some c =>
    dsimp only
    cases c.withParameter? x with
    | none => rfl
    | some c' => rfl

/-- Constraints that are there are removed one by one. -/
theorem run_takeConstraints {es : List (ConstraintId × Constraint)}
    (hes : ∀ e ∈ es, p.constraints.find? e.1 = some e.2) (hnd : (es.map Prod.fst).Nodup) :
    ((es.map Prod.fst).mapM takeConstraint).run.run p = (.ok es, es.foldl Problem.without p) := by
  induction es generalizing p with
  | nil => rfl
  | cons e rest ih =>
    obtain ⟨hnew, hrest⟩ := List.nodup_cons.1 hnd
    have htake : (takeConstraint e.1).run.run p = (.ok e, p.without e) := by
      unfold takeConstraint
      rw [Change.run_bind, run_removeConstraint, hes e List.mem_cons_self]
      rfl
    -- The handles are different, so the others are still there.
    have hstill : ∀ d ∈ rest, (p.without e).constraints.find? d.1 = some d.2 := fun d hd =>
      Registry.find?_erase_eq_some.2 ⟨fun he => hnew (he ▸ List.mem_map_of_mem hd),
        hes d (List.mem_cons_of_mem e hd)⟩
    rw [List.map_cons, List.mapM_cons, Change.run_bind_of_ok htake,
      Change.run_bind_of_ok (ih hstill hrest)]
    rfl

end ProblemM

/-! ### All views agree -/

namespace Problem

variable {p : Problem} {v : PointName} {id : ConstraintId} {c : Constraint}

/-- Constraints name points of the problem, the index has every constraint with what it says, and
the graph joins the constraints to their points, all in order. -/
structure Coherent (p : Problem) : Prop where
  graph : p.graph.Joins p.points.keys p.constraints.entries
  index : p.index.entries = p.constraints.entries.map fun e => (e.2.key, e.1)
  known : ∀ e ∈ p.constraints.entries, ∀ v ∈ e.2.names, v ∈ p.points.keys

theorem coherent_empty : empty.Coherent :=
  ⟨ConstraintGraph.joins_empty, rfl, fun _ he => nomatch he⟩

/-- No two constraints say the same thing. -/
theorem Coherent.nodup (h : p.Coherent) :
    (p.constraints.entries.map fun e => e.2.key).Nodup := by
  have hnd := p.index.nodup
  rw [h.index, List.map_map] at hnd
  exact hnd

theorem Coherent.eq_of_key_eq (h : p.Coherent) {d e : ConstraintId × Constraint}
    (hd : d ∈ p.constraints.entries) (he : e ∈ p.constraints.entries) (hk : d.2.key = e.2.key) :
    d = e :=
  List.inj_on_of_nodup_map h.nodup hd he hk

/-- The listing goes by the index and finds every constraint. -/
theorem Coherent.listing_eq (h : p.Coherent) : p.listing = p.constraints.entries := by
  have hvalues : p.index.values = p.constraints.entries.map Prod.fst := by
    show p.index.entries.map Prod.snd = _
    rw [h.index, List.map_map]
    rfl
  rw [listing, hvalues, List.filterMap_map]
  refine (List.filterMap_congr fun e he => ?_).trans List.filterMap_some
  show (p.constraints.find? e.1).map _ = some e
  rw [Registry.find?_eq_some.2 he]
  rfl

/-! ### Changes of points -/

theorem Coherent.addPoint (h : p.Coherent) (hv : v ∉ p.points.keys) (q : Vec)
    (feed : Feed ProblemEvent) :
    Coherent { p with
      points := p.points.insert v q
      graph := p.graph.addPoint v
      feed := feed } := by
  have hkeys : (p.points.insert v q).keys = p.points.keys ++ [v] := by
    rw [OrderedMap.keys_insert, if_neg hv]
  refine ⟨?_, h.index, fun e he u hu => ?_⟩
  · show (p.graph.addPoint v).Joins (p.points.insert v q).keys p.constraints.entries
    rw [hkeys]
    exact h.graph.addPoint hv
  · exact OrderedMap.mem_keys_insert.2 (.inr (h.known e he u hu))

theorem Coherent.setPoint (h : p.Coherent) (hv : v ∈ p.points.keys) (q : Vec)
    (feed : Feed ProblemEvent) :
    Coherent { p with points := p.points.insert v q, feed := feed } := by
  have hkeys : (p.points.insert v q).keys = p.points.keys := by
    rw [OrderedMap.keys_insert, if_pos hv]
  refine ⟨?_, h.index, fun e he u hu => ?_⟩
  · show p.graph.Joins (p.points.insert v q).keys p.constraints.entries
    rw [hkeys]
    exact h.graph
  · exact OrderedMap.mem_keys_insert.2 (.inr (h.known e he u hu))

/-- The problem without a point, as published. -/
def withoutPoint (p : Problem) (v : PointName) : Problem :=
  { p with
    points := p.points.erase v
    graph := p.graph.removePoint v
    feed := p.feed.publish (.removePoint v) }

theorem Coherent.withoutPoint (h : p.Coherent)
    (hv : ∀ e ∈ p.constraints.entries, v ∉ e.2.names) : (p.withoutPoint v).Coherent := by
  refine ⟨?_, h.index, fun e he u hu => ?_⟩
  · show (p.graph.removePoint v).Joins (p.points.erase v).keys p.constraints.entries
    rw [OrderedMap.keys_erase]
    exact h.graph.removePoint hv
  · refine OrderedMap.mem_keys_erase.2 ⟨h.known e he u hu, ?_⟩
    rintro rfl
    exact hv e he hu

/-! ### Changes of constraints -/

theorem Coherent.addConstraint (h : p.Coherent) (hc : ∀ v ∈ c.names, v ∈ p.points.keys)
    (hnew : c.key ∉ p.index.keys) (feed : Feed ProblemEvent) :
    Coherent { p with
      constraints := p.constraints.insert c
      index := p.index.insert c.key p.constraints.nextKey
      graph := p.graph.addConstraint p.constraints.nextKey c.names
      feed := feed } := by
  refine ⟨?_, ?_, fun e he v hv => ?_⟩
  · show (p.graph.addConstraint p.constraints.nextKey c.names).Joins p.points.keys
      (p.constraints.insert c).entries
    rw [Registry.entries_insert]
    exact h.graph.addConstraint p.constraints.nextKey_not_mem_keys hc
  · show OrderedMap.place c.key p.constraints.nextKey p.index.entries = _
    rw [OrderedMap.place_of_not_mem hnew, h.index, Registry.entries_insert, List.map_append]
    rfl
  · rw [Registry.entries_insert] at he
    rcases List.mem_append.1 he with he | he
    · exact h.known e he v hv
    · obtain rfl := List.mem_singleton.1 he
      exact hc v hv

/-- A constraint leaves every view. -/
theorem Coherent.without (h : p.Coherent) (hid : p.constraints.find? id = some c) :
    (p.without (id, c)).Coherent := by
  refine ⟨h.graph.removeConstraint id, ?_, fun e he v hv => ?_⟩
  · show p.index.entries.filter _ = (p.constraints.entries.filter _).map _
    rw [h.index, List.filter_map]
    refine congrArg _ (List.filter_congr fun e he => decide_eq_decide.2 (not_congr ?_))
    constructor
    · intro hk
      rw [h.eq_of_key_eq he (Registry.find?_eq_some.1 hid) hk]
    · intro hk
      have hfind := Registry.find?_eq_some.2 he
      rw [hk, hid] at hfind
      exact congrArg Constraint.key (Option.some_inj.1 hfind).symm
  · exact h.known e (List.mem_filter.1 he).1 v hv

theorem Coherent.setParameter (h : p.Coherent) (hid : p.constraints.find? id = some c)
    {c' : Constraint} (hnames : c'.names = c.names) (hkey : c'.key = c.key)
    (feed : Feed ProblemEvent) :
    Coherent { p with constraints := p.constraints.modify id fun _ => c', feed := feed } := by
  have hentries : (p.constraints.modify id fun _ => c').entries =
      p.constraints.entries.map fun e => if e.1 = id then (e.1, c') else e :=
    OrderedMap.entries_modify ..
  -- What a constraint says and where stays the same, also for the one with the new number.
  have hsame : ∀ e ∈ p.constraints.entries,
      (if e.1 = id then (e.1, c') else e).1 = e.1 ∧
        (if e.1 = id then (e.1, c') else e).2.names = e.2.names ∧
        (if e.1 = id then (e.1, c') else e).2.key = e.2.key := by
    intro e he
    split
    · rename_i hk
      have hfind := Registry.find?_eq_some.2 he
      rw [hk, hid] at hfind
      obtain rfl := Option.some_inj.1 hfind
      exact ⟨rfl, hnames, hkey⟩
    · exact ⟨rfl, rfl, rfl⟩
  refine ⟨?_, ?_, fun e he v hv => ?_⟩
  · refine h.graph.congr fun v => ?_
    show ConstraintGraph.incident (p.constraints.modify id fun _ => c').entries v = _
    rw [hentries, ConstraintGraph.incident, ConstraintGraph.incident, List.filter_map,
      List.map_map]
    have hfilter : p.constraints.entries.filter ((fun e => decide (v ∈ e.2.names)) ∘
        fun e => if e.1 = id then (e.1, c') else e) =
        p.constraints.entries.filter fun e => decide (v ∈ e.2.names) :=
      List.filter_congr fun e he => by rw [Function.comp_apply, (hsame e he).2.1]
    rw [hfilter]
    exact List.map_congr_left fun e he => (hsame e (List.mem_filter.1 he).1).1
  · show p.index.entries = (p.constraints.modify id fun _ => c').entries.map _
    rw [h.index, hentries, List.map_map]
    exact List.map_congr_left fun e he =>
      (Prod.ext (hsame e he).2.2 (hsame e he).1).symm
  · have he : e ∈ (p.constraints.modify id fun _ => c').entries := he
    rw [hentries] at he
    obtain ⟨d, hd, rfl⟩ := List.mem_map.1 he
    rw [(hsame d hd).2.1] at hv
    exact h.known d hd v hv

/-! ### Removing a point -/

theorem entries_foldl_without (es : List (ConstraintId × Constraint)) (p : Problem) :
    (es.foldl without p).constraints.entries =
      p.constraints.entries.filter fun e => e.1 ∉ es.map Prod.fst := by
  induction es generalizing p with
  | nil => exact (List.filter_eq_self.2 fun e _ => rfl).symm
  | cons d rest ih =>
    rw [List.foldl_cons, ih]
    show (p.constraints.entries.filter _).filter _ = _
    rw [List.filter_filter]
    refine List.filter_congr fun e _ => ?_
    rw [List.map_cons, ← Bool.decide_and, decide_eq_decide, List.mem_cons, not_or, and_comm]

theorem points_foldl_without (es : List (ConstraintId × Constraint)) (p : Problem) :
    (es.foldl without p).points = p.points := by
  induction es generalizing p with
  | nil => rfl
  | cons d rest ih => exact ih _

theorem Coherent.foldl_without {es : List (ConstraintId × Constraint)} (h : p.Coherent)
    (hes : ∀ e ∈ es, p.constraints.find? e.1 = some e.2) (hnd : (es.map Prod.fst).Nodup) :
    (es.foldl Problem.without p).Coherent := by
  induction es generalizing p with
  | nil => exact h
  | cons e rest ih =>
    obtain ⟨hnew, hrest⟩ := List.nodup_cons.1 hnd
    refine ih (h.without (hes e List.mem_cons_self)) (fun d hd => ?_) hrest
    exact Registry.find?_erase_eq_some.2 ⟨fun he => hnew (he ▸ List.mem_map_of_mem hd),
      hes d (List.mem_cons_of_mem e hd)⟩

/-- The constraints on a point with their handles, oldest first. -/
def entriesOn (p : Problem) (v : PointName) : List (ConstraintId × Constraint) :=
  p.constraints.entries.filter fun e => v ∈ e.2.names

theorem find?_of_mem_entriesOn {e : ConstraintId × Constraint} (he : e ∈ p.entriesOn v) :
    p.constraints.find? e.1 = some e.2 :=
  Registry.find?_eq_some.2 (List.mem_filter.1 he).1

theorem nodup_entriesOn (p : Problem) (v : PointName) : ((p.entriesOn v).map Prod.fst).Nodup :=
  (List.filter_sublist.map Prod.fst).nodup p.constraints.nodup_keys

/-- A point goes after all constraints on it. -/
theorem Coherent.run_removePoint (h : p.Coherent) (v : PointName) :
    (ProblemM.removePoint v).run.run p =
      if p.points.contains v then
        (.ok (p.entriesOn v), ((p.entriesOn v).foldl Problem.without p).withoutPoint v)
      else (.error (.unknownPoint v), p) := by
  unfold ProblemM.removePoint
  rw [Change.run_get_bind]
  split
  · have hes : ∀ e ∈ p.entriesOn v, p.constraints.find? e.1 = some e.2 := fun e he =>
      find?_of_mem_entriesOn he
    have htaken := ProblemM.run_takeConstraints hes (p.nodup_entriesOn v)
    have hon : p.constraintsOn v = (p.entriesOn v).map Prod.fst := h.graph.constraintsOn_eq v
    rw [hon, Change.run_bind_of_ok htaken]
    rfl
  · rfl

theorem Coherent.removePoint (h : p.Coherent) (v : PointName) :
    (((p.entriesOn v).foldl Problem.without p).withoutPoint v).Coherent := by
  refine (h.foldl_without (fun e he => find?_of_mem_entriesOn he)
    (p.nodup_entriesOn v)).withoutPoint fun e he hv => ?_
  rw [entries_foldl_without] at he
  obtain ⟨he, hno⟩ := List.mem_filter.1 he
  refine of_decide_eq_true hno (List.mem_map.2 ⟨e, List.mem_filter.2 ⟨he, ?_⟩, rfl⟩)
  exact decide_eq_true hv

/-! ### Runs -/

/-- A call of a problem that may change it. -/
inductive Operation where
  | addPoint (v : PointName) (position : Vec)
  | removePoint (v : PointName)
  | setPoint (v : PointName) (position : Vec)
  | addConstraint (c : Constraint)
  | removeConstraint (id : ConstraintId)
  | setParameter (id : ConstraintId) (x : Parameter)
  | subscribe
  | unsubscribe (l : ListenerId ProblemEvent)
  | drain (l : ListenerId ProblemEvent)

/-- The problem after a call, whatever the call returns. -/
def perform (p : Problem) : Operation → Problem
  | .addPoint v q => ((ProblemM.addPoint v q).run.run p).2
  | .removePoint v => ((ProblemM.removePoint v).run.run p).2
  | .setPoint v q => ((ProblemM.setPoint v q).run.run p).2
  | .addConstraint c => ((ProblemM.addConstraint c).run.run p).2
  | .removeConstraint id => ((ProblemM.removeConstraint id).run.run p).2
  | .setParameter id x => ((ProblemM.setParameter id x).run.run p).2
  | .subscribe => p.subscribe.2
  | .unsubscribe l => p.unsubscribe l
  | .drain l => (p.drain l).2

/-- Whether a call is accepted, or why it is refused. -/
def reply (p : Problem) : Operation → Except ProblemError Unit
  | .addPoint v q => ((ProblemM.addPoint v q).run.run p).1
  | .removePoint v => ((ProblemM.removePoint v).run.run p).1.map fun _ => ()
  | .setPoint v q => ((ProblemM.setPoint v q).run.run p).1
  | .addConstraint c => ((ProblemM.addConstraint c).run.run p).1.map fun _ => ()
  | .removeConstraint id => ((ProblemM.removeConstraint id).run.run p).1.map fun _ => ()
  | .setParameter id x => ((ProblemM.setParameter id x).run.run p).1
  | .subscribe | .unsubscribe _ | .drain _ => .ok ()

/-- The problem after a list of calls, from a problem without points. -/
def run (ops : List Operation) : Problem := ops.foldl perform empty

/-- The handle that a call returns for a new constraint. -/
def handedOut (p : Problem) : Operation → List ConstraintId
  | .addConstraint c => ((ProblemM.addConstraint c).run.run p).1.toOption.toList
  | _ => []

/-- The handles that a list of calls returns for new constraints, in order. -/
def insertions (p : Problem) : List Operation → List ConstraintId
  | [] => []
  | op :: rest => p.handedOut op ++ (p.perform op).insertions rest

theorem not_mem_names_find?_eq_none {names : List PointName}
    (h : (names.find? fun v => !p.points.contains v) = none) : ∀ v ∈ names, v ∈ p.points.keys := by
  intro v hv
  have hcontains := List.find?_eq_none.1 h v hv
  rw [Bool.not_eq_true, Bool.not_eq_false', OrderedMap.contains_iff] at hcontains
  exact hcontains

/-- Every call keeps the views in step, and one that is refused changes nothing. -/
theorem Coherent.perform (h : p.Coherent) (op : Operation) :
    (p.perform op).Coherent ∧ ∀ e, p.reply op = .error e → p.perform op = p := by
  -- Each call checks first; past the checks it writes the views together.
  cases op with
  | addPoint v q =>
    rw [Problem.perform, reply, ProblemM.run_addPoint]
    split
    · exact ⟨h, fun _ _ => rfl⟩
    · rename_i hv
      exact ⟨h.addPoint (mt (OrderedMap.contains_iff ..).2 hv) q _, fun _ he => by cases he⟩
  | removePoint v =>
    rw [Problem.perform, reply, h.run_removePoint]
    split
    · exact ⟨h.removePoint v, fun _ he => by cases he⟩
    · exact ⟨h, fun _ _ => rfl⟩
  | setPoint v q =>
    rw [Problem.perform, reply, ProblemM.run_setPoint]
    split
    · rename_i hv
      exact ⟨h.setPoint ((OrderedMap.contains_iff ..).1 hv) q _, fun _ he => by cases he⟩
    · exact ⟨h, fun _ _ => rfl⟩
  | addConstraint c =>
    rw [Problem.perform, reply, ProblemM.run_addConstraint]
    split
    · exact ⟨h, fun _ _ => rfl⟩
    · rename_i hnames
      split
      · exact ⟨h, fun _ _ => rfl⟩
      · rename_i hkey
        exact ⟨h.addConstraint (not_mem_names_find?_eq_none hnames)
          (mt (OrderedMap.contains_iff ..).2 hkey) _, fun _ he => by cases he⟩
  | removeConstraint id =>
    rw [Problem.perform, reply, ProblemM.run_removeConstraint]
    split
    · exact ⟨h, fun _ _ => rfl⟩
    · rename_i c hid
      exact ⟨h.without hid, fun _ he => by cases he⟩
  | setParameter id x =>
    rw [Problem.perform, reply, ProblemM.run_setParameter]
    split
    · exact ⟨h, fun _ _ => rfl⟩
    · rename_i c hid
      split
      · exact ⟨h, fun _ _ => rfl⟩
      · rename_i c' hc'
        obtain ⟨hnames, hkey⟩ := Constraint.withParameter?_eq_some hc'
        exact ⟨h.setParameter hid hnames hkey _, fun _ he => by cases he⟩
  | subscribe | unsubscribe l | drain l =>
    exact ⟨⟨h.graph, h.index, h.known⟩, fun _ he => by cases he⟩

/-- The constraints are those of the given handles that are still there, in order. -/
structure Logged (p : Problem) (log : List ConstraintId) : Prop where
  keys_eq : p.constraints.keys = log.filter p.constraints.contains
  nodup : log.Nodup
  issued : ∀ id ∈ log, id.serial ≤ p.constraints.issued

theorem Logged.congr {p' : Problem} {log : List ConstraintId} (h : p.Logged log)
    (hkeys : p'.constraints.keys = p.constraints.keys)
    (hissued : p'.constraints.issued = p.constraints.issued) : p'.Logged log := by
  refine ⟨?_, h.nodup, fun id hid => hissued ▸ h.issued id hid⟩
  rw [hkeys, h.keys_eq]
  refine List.filter_congr fun id _ => ?_
  rw [Bool.eq_iff_iff, Registry.contains_iff, Registry.contains_iff, hkeys]

theorem Logged.without {log : List ConstraintId} (h : p.Logged log)
    (e : ConstraintId × Constraint) : (p.without e).Logged log := by
  refine ⟨?_, h.nodup, h.issued⟩
  show (p.constraints.erase e.1).keys = log.filter (p.constraints.erase e.1).contains
  rw [Registry.keys_erase, h.keys_eq, List.filter_filter]
  refine List.filter_congr fun id _ => ?_
  rw [Bool.eq_iff_iff, Bool.and_eq_true, Registry.contains_iff, Registry.contains_iff,
    Registry.keys_erase, List.mem_filter, and_comm]

/-- A handle that is handed out comes last. -/
theorem Logged.insert {log : List ConstraintId} (h : p.Logged log) (c : Constraint) :
    ({ p with constraints := p.constraints.insert c } : Problem).Logged
      (log ++ [p.constraints.nextKey]) := by
  -- Handles are issued in turn, so the new one is none of the log.
  have hold : ∀ id ∈ log, id ≠ p.constraints.nextKey := by
    rintro id hid rfl
    exact Nat.not_succ_le_self _ (h.issued _ hid)
  refine ⟨?_, ?_, fun id hid => ?_⟩
  · show (p.constraints.insert c).keys = _
    rw [Registry.keys_insert, h.keys_eq, List.filter_append]
    congr 1
    · refine List.filter_congr fun id hid => ?_
      rw [Bool.eq_iff_iff, Registry.contains_iff, Registry.contains_iff]
      show _ ↔ id ∈ (p.constraints.insert c).keys
      rw [Registry.keys_insert, List.mem_append, List.mem_singleton, or_iff_left (hold id hid)]
    · refine (List.filter_eq_self.2 fun id hid => ?_).symm
      rw [Registry.contains_iff]
      show id ∈ (p.constraints.insert c).keys
      rw [Registry.keys_insert]
      exact List.mem_append_right _ hid
  · refine List.nodup_append.2 ⟨h.nodup, List.nodup_singleton _, fun a ha b hb => ?_⟩
    rw [List.mem_singleton.1 hb]
    exact hold a ha
  · rcases List.mem_append.1 hid with hid | hid
    · exact Nat.le_succ_of_le (h.issued id hid)
    · rw [List.mem_singleton.1 hid]
      exact Nat.le_refl _

theorem Logged.foldl_without {log : List ConstraintId} (h : p.Logged log)
    (es : List (ConstraintId × Constraint)) : (es.foldl Problem.without p).Logged log := by
  induction es generalizing p with
  | nil => exact h
  | cons e rest ih => exact ih (h.without e)

theorem Logged.perform {log : List ConstraintId} (h : p.Logged log) (hp : p.Coherent)
    (op : Operation) : (p.perform op).Logged (log ++ p.handedOut op) := by
  -- Just one kind of call hands out a handle.
  cases op with
  | addPoint v q =>
    show (p.perform _).Logged (log ++ [])
    rw [List.append_nil, Problem.perform, ProblemM.run_addPoint]
    split
    · exact h
    · exact h.congr rfl rfl
  | removePoint v =>
    show (p.perform _).Logged (log ++ [])
    rw [List.append_nil, Problem.perform, hp.run_removePoint]
    split
    · exact (h.foldl_without _).congr rfl rfl
    · exact h
  | setPoint v q =>
    show (p.perform _).Logged (log ++ [])
    rw [List.append_nil, Problem.perform, ProblemM.run_setPoint]
    split
    · exact h.congr rfl rfl
    · exact h
  | addConstraint c =>
    rw [handedOut, Problem.perform, ProblemM.run_addConstraint]
    split
    · exact (List.append_nil log).symm ▸ h
    · split
      · exact (List.append_nil log).symm ▸ h
      · exact (h.insert c).congr rfl rfl
  | removeConstraint id =>
    show (p.perform _).Logged (log ++ [])
    rw [List.append_nil, Problem.perform, ProblemM.run_removeConstraint]
    split
    · exact h
    · exact h.without _
  | setParameter id x =>
    show (p.perform _).Logged (log ++ [])
    rw [List.append_nil, Problem.perform, ProblemM.run_setParameter]
    split
    · exact h
    · split
      · exact h
      · exact h.congr (Registry.keys_modify ..) rfl
  | subscribe | unsubscribe l | drain l =>
    show (p.perform _).Logged (log ++ [])
    rw [List.append_nil]
    exact h.congr rfl rfl

theorem coherent_run (ops : List Operation) : (run ops).Coherent := by
  have hstart := coherent_empty
  unfold run
  generalize empty = p at hstart ⊢
  induction ops generalizing p with
  | nil => exact hstart
  | cons op rest ih => exact ih _ (hstart.perform op).1

theorem logged_run (ops : List Operation) : (run ops).Logged (empty.insertions ops) := by
  -- What was handed out before is carried along the run.
  have hlogged : ∀ (ops : List Operation) (p : Problem) (log : List ConstraintId), p.Coherent →
      p.Logged log → (ops.foldl Problem.perform p).Logged (log ++ p.insertions ops) := by
    intro ops
    induction ops with
    | nil => exact fun p log _ h => (List.append_nil log).symm ▸ h
    | cons op rest ih =>
      intro p log hp h
      have hrest := ih (p.perform op) _ (hp.perform op).1 (h.perform hp op)
      rwa [List.append_assoc] at hrest
  exact hlogged ops empty [] coherent_empty ⟨rfl, List.nodup_nil, fun _ hid => nomatch hid⟩

/-- After every run the constraints mention only points of the problem and no two of them say the
same thing.  The listing has every constraint once, in the order in which their handles were
returned; the constraints on a point are those of the listing that mention it, in the same order;
and the graph has just the points.  A call that is refused leaves the problem as it was, with what
is queued for its subscribers. -/
theorem representation_run (ops : List Operation) :
    let p := run ops
    (∀ id c, p.constraints.find? id = some c → ∀ v ∈ c.names, v ∈ p.points.keys) ∧
    (∀ i j c d, p.constraints.find? i = some c → p.constraints.find? j = some d →
      c.Equivalent d → i = j) ∧
    ((∀ id c, (id, c) ∈ p.listing ↔ p.constraints.find? id = some c) ∧
      (empty.insertions ops).Nodup ∧
      p.listing.map Prod.fst = (empty.insertions ops).filter p.constraints.contains) ∧
    (∀ v, p.constraintsOn v = (p.listing.filter fun e => v ∈ e.2.names).map Prod.fst) ∧
    p.graph.points = p.points.keys ∧
    ∀ op e, p.reply op = .error e → p.perform op = p := by
  intro p
  have hp := coherent_run ops
  have hlog := logged_run ops
  have hlisting := hp.listing_eq
  refine ⟨fun id c hid => hp.known (id, c) (Registry.find?_eq_some.1 hid), ?_,
    ⟨fun id c => ?_, hlog.nodup, ?_⟩, fun v => ?_, hp.graph.points_eq, fun op => (hp.perform op).2⟩
  · intro i j c d hi hj he
    exact congrArg Prod.fst (hp.eq_of_key_eq (Registry.find?_eq_some.1 hi)
      (Registry.find?_eq_some.1 hj) (Constraint.key_eq_iff.2 he))
  · rw [hlisting, Registry.find?_eq_some]
  · rw [hlisting]
    exact hlog.keys_eq
  · rw [hlisting]
    exact hp.graph.constraintsOn_eq v

end Problem

end PlanarSketch
