/-
Figures: what a sketch shows, and the clusters that stand for it.

Every point stands for itself, every distance and every angle between three
points for what it says, and all fixed points together for one rigid.  When a
point or a constraint comes, goes or gets another number, the cluster of just
one of these origins changes.

* `Figure`, `Figure.fixes`, `Figure.selections`: points and constraints, and
  what some of the constraints say;
* `Origin`, `Figure.piece?`: what a cluster stands for, and the cluster with
  its configuration;
* `Figure.piece?_points`, `piece?_constraint`, `piece?_fixes`: one change;
* `Holding`: each piece is in stock once, and nothing else is.
-/
import PlanarSketch.Proofs.Given
import PlanarSketch.Proofs.Representation
import PlanarSketch.Sketch.Basic

namespace PlanarSketch

/-! ### What constraints say -/

/-- The position that a constraint fixes. -/
def Constraint.fix? : Constraint → Option (PointName × Vec)
  | .fix v q => some (v, q)
  | _ => none

/-- The question that a constraint asks. -/
def Constraint.selection? : Constraint → Option SelectionConstraint
  | .selection s => some s
  | _ => none

/-- The cluster that stands for a constraint, with its configuration.  None stands for an angle
that names a point twice. -/
def Constraint.piece? : Constraint → Option (Cluster × Configuration)
  | .distance a b x => some (.rigid (.ofList [a, b]), Sketch.distanceConfiguration a b x)
  | .angle a b c x =>
    if a ≠ b ∧ b ≠ c ∧ a ≠ c then
      some (.hedgehog b (.ofList [a, c]), Sketch.angleConfiguration a b c x)
    else none
  | _ => none

theorem Constraint.fix?_eq_some {c : Constraint} {e : PointName × Vec} :
    c.fix? = some e ↔ c = .fix e.1 e.2 := by
  cases c <;> simp [fix?, Prod.ext_iff]

theorem Constraint.selection?_eq_some {c : Constraint} {s : SelectionConstraint} :
    c.selection? = some s ↔ c = .selection s := by
  cases c <;> simp [selection?]

theorem Cluster.checked_of_valid {o : Cluster} (h : o.Valid) : o.checked = .ok o := by
  rw [checked, h]
  rfl

theorem Cluster.checked_of_not_valid {o : Cluster} (h : ¬o.Valid) : ∃ e, o.checked = .error e := by
  unfold checked
  cases ho : o.validate with
  | ok u => exact absurd ho h
  | error e => exact ⟨e, rfl⟩

/-- Just three different points make a hedgehog. -/
theorem Cluster.valid_hedgehog_pair_iff {a b c : PointName} :
    (hedgehog b (.ofList [a, c])).Valid ↔ a ≠ b ∧ b ≠ c ∧ a ≠ c := by
  rw [valid_hedgehog_iff, NameSet.two_le_size_iff]
  simp only [NameSet.mem_ofList, List.mem_cons, List.not_mem_nil, or_false, not_or]
  constructor
  · rintro ⟨⟨hba, hbc⟩, v, w, hv, hw, hne⟩
    refine ⟨Ne.symm hba, hbc, ?_⟩
    rintro rfl
    exact hne ((or_self_iff.1 hv).trans (or_self_iff.1 hw).symm)
  · rintro ⟨hab, hbc, hac⟩
    exact ⟨⟨Ne.symm hab, hbc⟩, a, c, .inl rfl, .inr rfl, hac⟩

/-- Positions of the points of a rigid. -/
theorem Cluster.fits_rigid {l : List (PointName × Vec)} (hl : l ≠ []) :
    (rigid (.ofList (l.map Prod.fst))).Valid ∧
      (Configuration.ofList l).Fits (rigid (.ofList (l.map Prod.fst))) := by
  refine ⟨valid_rigid_iff.2 ?_, fun v => ?_⟩
  · obtain ⟨e, he⟩ := List.exists_mem_of_ne_nil l hl
    exact ⟨e.1, NameSet.mem_ofList.2 (List.mem_map_of_mem he)⟩
  · rw [Configuration.mem_names_ofList, mem_rigid, NameSet.mem_ofList]

/-- Distances and angles have clusters, and nothing else has. -/
theorem Constraint.cases_of_piece? {c : Constraint} {o : Cluster} {conf : Configuration}
    (h : c.piece? = some (o, conf)) :
    (∃ a b x, c = .distance a b x ∧ o = .rigid (.ofList [a, b]) ∧
      conf = Sketch.distanceConfiguration a b x) ∨
    (∃ a b p x, c = .angle a b p x ∧ (a ≠ b ∧ b ≠ p ∧ a ≠ p) ∧ o = .hedgehog b (.ofList [a, p]) ∧
      conf = Sketch.angleConfiguration a b p x) := by
  cases c with
  | distance a b x =>
    cases h
    exact .inl ⟨a, b, x, rfl, rfl, rfl⟩
  | angle a b p x =>
    obtain ⟨hne, h⟩ := Option.ite_none_right_eq_some.1 h
    cases h
    exact .inr ⟨a, b, p, x, rfl, hne, rfl, rfl⟩
  | fix v q => cases h
  | selection s => cases h

/-- A piece is a valid cluster with a configuration that fits. -/
theorem Constraint.fits_of_piece? {c : Constraint} {o : Cluster} {conf : Configuration}
    (h : c.piece? = some (o, conf)) : o.Valid ∧ conf.Fits o := by
  obtain ⟨a, b, x, rfl, rfl, rfl⟩ | ⟨a, b, p, x, rfl, hne, rfl, rfl⟩ := cases_of_piece? h
  · exact Cluster.fits_rigid (l := [(a, .zero), (b, ⟨x, 0.0⟩)]) nofun
  · refine ⟨Cluster.valid_hedgehog_pair_iff.2 hne, fun v => ?_⟩
    rw [Sketch.angleConfiguration, Configuration.mem_names_ofList, Cluster.mem_hedgehog,
      NameSet.mem_ofList]
    simp

/-! ### Figures -/

/-- What a sketch shows: points as drawn, and constraints. -/
structure Figure where
  points : OrderedMap PointName Vec
  constraints : OrderedMap ConstraintId Constraint

/-- What a problem says. -/
def Problem.figure (p : Problem) : Figure := ⟨p.points, p.constraints.store⟩

/-- What a cluster of a sketch stands for. -/
inductive Origin where
  | point (v : PointName)
  | constraint (id : ConstraintId)
  /-- All fixed points. -/
  | fixes
deriving DecidableEq

namespace Figure

variable {f : Figure} {m : OrderedMap ConstraintId Constraint} {id : ConstraintId}
  {c c' : Constraint} {γ : Type} {g : Constraint → Option γ} {v : PointName} {q : Vec}

/-- What is read off constraints, oldest first. -/
def readings (g : Constraint → Option γ) (m : OrderedMap ConstraintId Constraint) : List γ :=
  m.values.filterMap g

/-- The fixed points with their positions. -/
def fixes (f : Figure) : List (PointName × Vec) := readings Constraint.fix? f.constraints

/-- The questions that every solution has to answer with yes. -/
def selections (f : Figure) : List SelectionConstraint :=
  readings Constraint.selection? f.constraints

/-- The rigid of fixed points, unless there are none. -/
def anchor? : List (PointName × Vec) → Option (Cluster × Configuration)
  | [] => none
  | e :: rest => some (.rigid (.ofList ((e :: rest).map Prod.fst)), .ofList (e :: rest))

/-- The cluster that stands for an origin, with its configuration. -/
def piece? (f : Figure) : Origin → Option (Cluster × Configuration)
  | .point v => (f.points.find? v).map fun q => (.rigid (.ofList [v]), .single v q)
  | .constraint id => (f.constraints.find? id).bind Constraint.piece?
  | .fixes => anchor? f.fixes

/-- No two constraints say the same thing. -/
def Distinct (f : Figure) : Prop := ∀ i j c d, f.constraints.find? i = some c →
  f.constraints.find? j = some d → c.key = d.key → i = j

/-! ### Readings -/

theorem readings_eq (g : Constraint → Option γ) (m : OrderedMap ConstraintId Constraint) :
    readings g m = m.entries.filterMap fun e => g e.2 :=
  List.filterMap_map

theorem mem_readings {r : γ} :
    r ∈ readings g m ↔ ∃ i d, m.find? i = some d ∧ g d = some r := by
  rw [readings_eq, List.mem_filterMap]
  constructor
  · rintro ⟨⟨i, d⟩, he, hr⟩
    exact ⟨i, d, OrderedMap.find?_eq_some.2 he, hr⟩
  · rintro ⟨i, d, hi, hr⟩
    exact ⟨(i, d), OrderedMap.find?_eq_some.1 hi, hr⟩

theorem readings_insert (h : id ∉ m.keys) :
    readings g (m.insert id c) = readings g m ++ (g c).toList := by
  rw [readings_eq, readings_eq, OrderedMap.entries_insert_of_new h, List.filterMap_append]
  rfl

/-- A constraint goes with what is read off it. -/
theorem readings_erase {p : γ → Bool}
    (h : ∀ i d r, m.find? i = some d → g d = some r → (i ≠ id ↔ p r = true)) :
    readings g (m.erase id) = (readings g m).filter p := by
  rw [readings_eq, readings_eq]
  refine filterMap_filter_eq fun e he r hr => ?_
  have hiff := h e.1 e.2 r (OrderedMap.find?_eq_some.2 he) hr
  by_cases hid : e.1 = id
  · simpa [hid] using hiff
  · simpa [hid] using hiff

theorem readings_erase_of_none (hid : m.find? id = some c) (hc : g c = none) :
    readings g (m.erase id) = readings g m := by
  refine (readings_erase (p := fun _ => true) fun i d r hi hr => ?_).trans (List.filter_true _)
  refine iff_of_true ?_ rfl
  rintro rfl
  rw [Option.some_inj.1 (hid.symm.trans hi), hr] at hc
  cases hc

/-- A constraint gets another number, and what is read off it changes. -/
theorem readings_modify {r : γ → γ} (hnone : ∀ d, m.find? id = some d → g d = none → g c' = none)
    (h : ∀ i d b, m.find? i = some d → g d = some b →
      (i = id → g c' = some (r b)) ∧ (i ≠ id → r b = b)) :
    readings g (m.modify id fun _ => c') = (readings g m).map r := by
  rw [readings_eq, readings_eq, OrderedMap.entries_modify, List.filterMap_map, List.map_filterMap]
  refine List.filterMap_congr fun e he => ?_
  have hfind := OrderedMap.find?_eq_some.2 he
  rw [Function.comp_apply]
  -- Entry by entry: at `id` the new constraint is read, everywhere else the old one.
  cases hg : g e.2 with
  | none =>
    by_cases hid : e.1 = id
    · rw [if_pos hid]
      exact hnone e.2 (hid ▸ hfind) hg
    · rw [if_neg hid]
      exact hg
  | some b =>
    obtain ⟨hsame, hother⟩ := h e.1 e.2 b hfind hg
    by_cases hid : e.1 = id
    · rw [if_pos hid]
      exact hsame hid
    · rw [if_neg hid, hg]
      exact congrArg some (hother hid).symm

/-- Where nothing is read off a constraint, another number changes nothing that is read. -/
theorem readings_modify_of_none (hid : m.find? id = some c) (hc : g c = none) (hc' : g c' = none) :
    readings g (m.modify id fun _ => c') = readings g m := by
  refine (readings_modify (r := fun b => b) (fun _ _ _ => hc') fun i d b hi hb =>
    ⟨?_, fun _ => rfl⟩).trans (List.map_id _)
  rintro rfl
  rw [Option.some_inj.1 (hid.symm.trans hi), hb] at hc
  cases hc

/-! ### Fixed positions and questions -/

theorem mem_fixes {e : PointName × Vec} :
    e ∈ f.fixes ↔ ∃ i, f.constraints.find? i = some (.fix e.1 e.2) := by
  refine mem_readings.trans (exists_congr fun i => ?_)
  simp only [Constraint.fix?_eq_some]
  constructor
  · rintro ⟨d, hi, rfl⟩
    exact hi
  · intro hi
    exact ⟨_, hi, rfl⟩

theorem mem_selections {s : SelectionConstraint} :
    s ∈ f.selections ↔ ∃ i, f.constraints.find? i = some (.selection s) := by
  refine mem_readings.trans (exists_congr fun i => ?_)
  simp only [Constraint.selection?_eq_some]
  constructor
  · rintro ⟨d, hi, rfl⟩
    exact hi
  · intro hi
    exact ⟨_, hi, rfl⟩

/-- A point is fixed once. -/
theorem Distinct.fixes_erase (h : f.Distinct) (hid : f.constraints.find? id = some (.fix v q)) :
    readings Constraint.fix? (f.constraints.erase id) = f.fixes.filter fun e => e.1 ≠ v := by
  refine readings_erase fun i d r hi hr => ?_
  rw [Constraint.fix?_eq_some] at hr
  subst hr
  rw [decide_eq_true_iff]
  refine not_congr ⟨?_, fun hr => h _ _ _ _ hi hid (congrArg ConstraintKey.fix hr)⟩
  rintro rfl
  cases hi.symm.trans hid
  rfl

/-- A question is asked once. -/
theorem Distinct.selections_erase (h : f.Distinct) {s : SelectionConstraint}
    (hid : f.constraints.find? id = some (.selection s)) :
    readings Constraint.selection? (f.constraints.erase id) =
      f.selections.filter fun t => t ≠ s := by
  refine readings_erase fun i d r hi hr => ?_
  rw [Constraint.selection?_eq_some] at hr
  subst hr
  rw [decide_eq_true_iff]
  refine not_congr ⟨?_, fun hr => h _ _ _ _ hi hid (congrArg ConstraintKey.selection hr)⟩
  rintro rfl
  cases hi.symm.trans hid
  rfl

/-- A fixed point gets another position. -/
theorem Distinct.fixes_modify (h : f.Distinct) (hid : f.constraints.find? id = some (.fix v q))
    (q' : Vec) :
    readings Constraint.fix? (f.constraints.modify id fun _ => .fix v q') =
      f.fixes.map fun e => if e.1 = v then (e.1, q') else e := by
  refine readings_modify (fun d hd hnone => ?_) fun i d b hi hb => ⟨?_, fun hne => if_neg ?_⟩
  · cases hid.symm.trans hd
    cases hnone
  · rintro rfl
    cases hid.symm.trans hi
    cases hb
    rw [if_pos rfl]
    rfl
  · rw [Constraint.fix?_eq_some] at hb
    subst hb
    exact fun hv => hne (h _ _ _ _ hi hid (congrArg ConstraintKey.fix hv))

/-! ### Pieces -/

theorem anchor?_of_ne_nil {l : List (PointName × Vec)} (hl : l ≠ []) :
    anchor? l = some (.rigid (.ofList (l.map Prod.fst)), .ofList l) := by
  obtain ⟨e, rest, rfl⟩ := List.exists_cons_of_ne_nil hl
  rfl

theorem fits_anchor? {l : List (PointName × Vec)} {o : Cluster} {conf : Configuration}
    (h : anchor? l = some (o, conf)) : o.Valid ∧ conf.Fits o := by
  cases l with
  | nil => cases h
  | cons e rest =>
    cases h
    exact Cluster.fits_rigid (List.cons_ne_nil e rest)

/-- A change of one point. -/
theorem piece?_points {points : OrderedMap PointName Vec} {r : Option Vec}
    (h : ∀ w, points.find? w = if v = w then r else f.points.find? w) :
    ({ f with points := points } : Figure).piece? =
      Function.update f.piece? (.point v)
        (r.map fun q => (.rigid (.ofList [v]), .single v q)) := by
  funext o
  rw [Function.update_apply]
  cases o with
  | point w =>
    show (points.find? w).map _ = _
    rw [h]
    by_cases hw : v = w
    · subst hw
      rw [if_pos rfl, if_pos rfl]
    · rw [if_neg hw, if_neg fun he => hw (Origin.point.inj he).symm]
      rfl
  | constraint id => exact (if_neg nofun).symm
  | fixes => exact (if_neg nofun).symm

/-- A change of one constraint that leaves the fixed positions alone. -/
theorem piece?_constraint (hother : ∀ j, j ≠ id → m.find? j = f.constraints.find? j)
    (hfixes : readings Constraint.fix? m = f.fixes) :
    ({ f with constraints := m } : Figure).piece? =
      Function.update f.piece? (.constraint id) ((m.find? id).bind Constraint.piece?) := by
  funext o
  rw [Function.update_apply]
  cases o with
  | point w => exact (if_neg nofun).symm
  | constraint j =>
    by_cases h : j = id
    · subst h
      exact (if_pos rfl).symm
    · rw [if_neg fun he => h (Origin.constraint.inj he)]
      exact congrArg (Option.bind · Constraint.piece?) (hother j h)
  | fixes =>
    rw [if_neg nofun]
    exact congrArg anchor? hfixes

/-- A change of constraints that have no cluster of their own. -/
theorem piece?_fixes
    (hpiece : ∀ j, (m.find? j).bind Constraint.piece? =
      (f.constraints.find? j).bind Constraint.piece?) :
    ({ f with constraints := m } : Figure).piece? =
      Function.update f.piece? .fixes (anchor? (readings Constraint.fix? m)) := by
  funext o
  rw [Function.update_apply]
  cases o with
  | point w => exact (if_neg nofun).symm
  | constraint j =>
    rw [if_neg nofun]
    exact hpiece j
  | fixes => exact (if_pos rfl).symm

/-- A change of one constraint that has a cluster neither before nor after. -/
theorem bind_piece?_congr (hother : ∀ j, j ≠ id → m.find? j = f.constraints.find? j)
    (hid : (f.constraints.find? id).bind Constraint.piece? = none)
    (hm : (m.find? id).bind Constraint.piece? = none) (j : ConstraintId) :
    (m.find? j).bind Constraint.piece? = (f.constraints.find? j).bind Constraint.piece? := by
  by_cases h : j = id
  · rw [h, hid, hm]
  · rw [hother j h]

end Figure

/-! ### Pieces in stock -/

/-- Each piece is in stock once, with its configuration, and nothing else is: `hold` tells where. -/
structure Holding (hold : Origin → Option ClusterId)
    (piece : Origin → Option (Cluster × Configuration))
    (stock : ClusterId → Option (Cluster × Option Candidates)) : Prop where
  held : ∀ o, (hold o).map stock = (piece o).map fun e => some (e.1, some [e.2])
  exists_hold : ∀ id e, stock id = some e → ∃ o, hold o = some id
  injective : ∀ o o' id, hold o = some id → hold o' = some id → o = o'

namespace Holding

variable {hold : Origin → Option ClusterId} {piece : Origin → Option (Cluster × Configuration)}
  {stock : ClusterId → Option (Cluster × Option Candidates)} {o : Origin} {n : ClusterId}
  {c : Cluster} {conf : Configuration}

theorem eq_none_iff (h : Holding hold piece stock) : hold o = none ↔ piece o = none := by
  have ho := h.held o
  cases hhold : hold o <;> cases hpiece : piece o <;> simp_all

theorem stock_of_hold (h : Holding hold piece stock) (ho : hold o = some n) :
    ∃ e, piece o = some e ∧ stock n = some (e.1, some [e.2]) := by
  have hheld := h.held o
  rw [ho, Option.map_some, eq_comm, Option.map_eq_some_iff] at hheld
  obtain ⟨e, he, hstock⟩ := hheld
  exact ⟨e, he, hstock.symm⟩

theorem exists_of_piece (h : Holding hold piece stock) (ho : piece o = some (c, conf)) :
    ∃ n, hold o = some n ∧ stock n = some (c, some [conf]) := by
  have hheld := h.held o
  rw [ho, Option.map_some, Option.map_eq_some_iff] at hheld
  exact hheld

/-- Another piece comes into stock. -/
theorem add (h : Holding hold piece stock) (hn : stock n = none) (c : Cluster)
    (conf : Configuration) (ho : piece o = none) :
    Holding (Function.update hold o (some n)) (Function.update piece o (some (c, conf)))
      (Function.update stock n (some (c, some [conf]))) := by
  -- The others are held elsewhere.
  have hne : ∀ o' id, hold o' = some id → id ≠ n := by
    rintro o' id hid rfl
    obtain ⟨e, -, he⟩ := h.stock_of_hold hid
    rw [hn] at he
    cases he
  refine ⟨fun o' => ?_, fun id e he => ?_, fun o₁ o₂ id h₁ h₂ => ?_⟩
  · by_cases heq : o' = o
    · subst heq
      simp
    · rw [Function.update_of_ne heq, Function.update_of_ne heq, ← h.held o']
      exact Option.map_congr fun id hid => Function.update_of_ne (hne o' id hid) ..
  · by_cases hid : id = n
    · exact ⟨o, by rw [Function.update_self, hid]⟩
    · rw [Function.update_of_ne hid] at he
      obtain ⟨o', ho'⟩ := h.exists_hold id e he
      refine ⟨o', ?_⟩
      rw [Function.update_of_ne, ho']
      rintro rfl
      rw [h.eq_none_iff.2 ho] at ho'
      cases ho'
  · rw [Function.update_apply] at h₁ h₂
    split at h₁ <;> split at h₂
    · rename_i he₁ he₂
      exact he₁.trans he₂.symm
    · exact absurd (Option.some_inj.1 h₁).symm (hne o₂ id h₂)
    · exact absurd (Option.some_inj.1 h₂).symm (hne o₁ id h₁)
    · exact h.injective o₁ o₂ id h₁ h₂

/-- A piece goes. -/
theorem remove (h : Holding hold piece stock) (ho : hold o = some n) :
    Holding (Function.update hold o none) (Function.update piece o none)
      (Function.update stock n none) := by
  -- The others are held elsewhere.
  have hne : ∀ o' id, o' ≠ o → hold o' = some id → id ≠ n := by
    rintro o' id hne hid rfl
    exact hne (h.injective o' o id hid ho)
  refine ⟨fun o' => ?_, fun id e he => ?_, fun o₁ o₂ id h₁ h₂ => ?_⟩
  · by_cases heq : o' = o
    · subst heq
      simp
    · rw [Function.update_of_ne heq, Function.update_of_ne heq, ← h.held o']
      exact Option.map_congr fun id hid => Function.update_of_ne (hne o' id heq hid) ..
  · have hid : id ≠ n := by
      rintro rfl
      rw [Function.update_self] at he
      cases he
    rw [Function.update_of_ne hid] at he
    obtain ⟨o', ho'⟩ := h.exists_hold id e he
    refine ⟨o', ?_⟩
    rw [Function.update_of_ne, ho']
    rintro rfl
    exact hid (Option.some_inj.1 (ho'.symm.trans ho))
  · rw [Function.update_apply] at h₁ h₂
    split at h₁
    · cases h₁
    · split at h₂
      · cases h₂
      · exact h.injective o₁ o₂ id h₁ h₂

/-- A piece gets another configuration. -/
theorem assign (h : Holding hold piece stock) (ho : hold o = some n) (hc : piece o = some (c, conf))
    (conf' : Configuration) :
    Holding hold (Function.update piece o (some (c, conf')))
      (Function.update stock n ((stock n).map fun e => (e.1, some [conf']))) := by
  obtain ⟨e, he, hstock⟩ := h.stock_of_hold ho
  obtain rfl := Option.some_inj.1 (he.symm.trans hc)
  refine ⟨fun o' => ?_, fun id d hd => ?_, h.injective⟩
  · by_cases heq : o' = o
    · subst heq
      rw [ho, Function.update_self, Option.map_some, Function.update_self, hstock]
      rfl
    · rw [Function.update_of_ne heq, ← h.held o']
      refine Option.map_congr fun id hid => Function.update_of_ne ?_ ..
      rintro rfl
      exact heq (h.injective o' o id hid ho)
  · by_cases hid : id = n
    · exact ⟨o, by rw [ho, hid]⟩
    · rw [Function.update_of_ne hid] at hd
      exact h.exists_hold id d hd

end Holding

end PlanarSketch
