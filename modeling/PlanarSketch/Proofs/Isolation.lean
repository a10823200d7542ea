/-
New parts of a dataflow leave the old ones alone.

Suppose that a dataflow is up to date and that only cells and methods are
added to it.  The new methods may read old cells but write new ones, and the
old methods do not know the new cells, so whatever is computed from then on is
computed beside the old cells, and so is what taking new parts out again sets
off.

* `Wired`: methods read and write cells that have been handed out;
* `Shrunk`: no methods are added, as in most changes;
* `Apart`: the old cells are as they were, and nothing new reaches them, kept
  by every change of new parts and by propagation (`Apart.propagate`).
-/
import PlanarSketch.Dataflow.Propagation
import PlanarSketch.Proofs.Collection

namespace PlanarSketch

/-- What holds of the queue and is handed on to successors holds of all that is explored. -/
theorem forall_mem_explore {V : Type} [DecidableEq V] {next : V → List V} {P : V → Prop}
    (hnext : ∀ v, P v → ∀ w ∈ next v, P w) (n : Nat) {seen queue : List V}
    (hseen : ∀ v ∈ seen, P v) (hqueue : ∀ v ∈ queue, P v) :
    ∀ v ∈ explore next n seen queue, P v := by
  induction n generalizing seen queue with
  | zero => exact hseen
  | succ n ih =>
    unfold explore
    split
    · exact hseen
    · rename_i v rest hv
      -- What is dropped from the queue has been seen, and the rest stays.
      have hrest : ∀ w ∈ v :: rest, P w := fun w hw =>
        hqueue w ((List.dropWhile_sublist _).subset (hv ▸ hw))
      refine ih (fun w hw => ?_) fun w hw => ?_
      · rcases List.mem_append.1 hw with hw | hw
        · exact hseen w hw
        · rw [List.mem_singleton.1 hw]
          exact hrest v List.mem_cons_self
      · rcases List.mem_append.1 hw with hw | hw
        · exact hrest w (List.mem_cons_of_mem _ hw)
        · exact hnext v (hrest v List.mem_cons_self) w hw

namespace Dataflow

variable {V : Type} {g g' g'' g₀ : Dataflow V} {c : CellId V} {m : MethodId V}

/-! ### Look-ups -/

theorem mem_consumers : m ∈ g.consumers c ↔ ∃ i, g.methods.find? m = some i ∧ c ∈ i.inputs := by
  simp only [consumers, List.mem_map, List.mem_filter, decide_eq_true_eq]
  constructor
  · rintro ⟨⟨j, i⟩, ⟨hi, hc⟩, rfl⟩
    exact ⟨i, Registry.find?_eq_some.2 hi, hc⟩
  · rintro ⟨i, hi, hc⟩
    exact ⟨(m, i), ⟨Registry.find?_eq_some.1 hi, hc⟩, rfl⟩

theorem find?_of_determining? (h : g.determining? c = some m) :
    ∃ i, g.methods.find? m = some i ∧ c ∈ i.outputs := by
  obtain ⟨⟨j, i⟩, he, rfl⟩ := Option.map_eq_some_iff.1 h
  exact ⟨i, Registry.find?_eq_some.2 (List.mem_of_find?_eq_some he), by
    simpa using List.find?_some he⟩

theorem mem_outputs (h : c ∈ g.outputs m) : ∃ i, g.methods.find? m = some i ∧ c ∈ i.outputs := by
  unfold outputs at h
  split at h
  · rename_i i hi
    exact ⟨i, hi, h⟩
  · cases h

/-! ### Changes that add no methods -/

/-- No methods have been added and no cells handed out. -/
structure Shrunk (g g' : Dataflow V) : Prop where
  methods : ∀ m i, g'.methods.find? m = some i → g.methods.find? m = some i
  issued : g'.cells.issued = g.cells.issued
  methodsIssued : g'.methods.issued = g.methods.issued
  pending : ∀ m ∈ g'.pending, m ∈ g.pending

theorem Shrunk.refl (g : Dataflow V) : g.Shrunk g := ⟨fun _ _ h => h, rfl, rfl, fun _ h => h⟩

theorem Shrunk.trans (h : g.Shrunk g') (h' : g'.Shrunk g'') : g.Shrunk g'' :=
  ⟨fun m i hi => h.methods m i (h'.methods m i hi), h'.issued.trans h.issued,
    h'.methodsIssued.trans h.methodsIssued, fun m hm => h.pending m (h'.pending m hm)⟩

theorem shrunk_write (g : Dataflow V) (c : CellId V) (v : Option V) : g.Shrunk (g.write c v) := by
  unfold write
  split
  · exact ⟨fun _ _ h => h, rfl, rfl, fun _ h => h⟩
  · exact .refl g

theorem shrunk_foldl {α : Type} {f : Dataflow V → α → Dataflow V} (hf : ∀ g a, Shrunk g (f g a))
    (l : List α) (g : Dataflow V) : g.Shrunk (l.foldl f g) := by
  induction l generalizing g with
  | nil => exact .refl g
  | cons a rest ih => exact (hf g a).trans (ih _)

theorem shrunk_dropMethod (g : Dataflow V) (m : MethodId V) : g.Shrunk (g.dropMethod m) := by
  have hbare : g.Shrunk (g.uninstall m) :=
    ⟨fun j i h => (Registry.find?_erase_eq_some.1 h).2, rfl, rfl,
      fun j h => (OrderedSet.mem_erase.1 h).1⟩
  exact hbare.trans (shrunk_foldl (fun g c => g.shrunk_write c none) _ _)

theorem shrunk_removeCell (h : g.removeCell c = .ok g') : g.Shrunk g' := by
  unfold removeCell at h
  split at h
  · cases h
    obtain ⟨h₁, h₂, h₃, h₄⟩ := shrunk_foldl shrunk_dropMethod (g.around c) g
    exact ⟨h₁, h₂, h₃, h₄⟩
  · cases h

theorem shrunk_set {v : V} (h : g.set c v = .ok g') : g.Shrunk g' := by
  unfold set at h
  split at h
  · cases h
    exact shrunk_write g c _
  · cases h

/-- Running a method writes to its outputs. -/
theorem execute_eq_ok (h : g.execute m = .ok g') : ∃ writes : List (CellId V × Option V),
    (∀ w ∈ writes, w.1 ∈ g.outputs m) ∧ g' = writes.foldl (fun g w => g.write w.1 w.2) g := by
  unfold execute at h
  split at h
  · cases h
  · rename_i i hi
    split at h
    · cases h
    · rename_i values hv
      cases h
      refine ⟨i.outputs.zip values, fun w hw => ?_, rfl⟩
      rw [outputs, hi]
      exact (List.of_mem_zip hw).1

theorem shrunk_execute (h : g.execute m = .ok g') : g.Shrunk g' := by
  obtain ⟨writes, -, rfl⟩ := execute_eq_ok h
  exact shrunk_foldl (fun g w => g.shrunk_write w.1 w.2) writes g

theorem shrunk_executeAll (l : List (MethodId V)) (g : Dataflow V) :
    g.Shrunk (g.executeAll l).2 := by
  induction l generalizing g with
  | nil => exact .refl g
  | cons m rest ih =>
    unfold executeAll
    split
    · exact .refl g
    · rename_i g' hg
      exact (shrunk_execute hg).trans (ih g')

/-- A propagation that succeeds has run its schedule to the end. -/
theorem propagate_eq_ok (h : g.propagate = (.ok (), g')) :
    ∃ g₁, g.settled.executeAll g.schedule = (.ok (), g₁) ∧ g' = { g₁ with changed := .empty } := by
  unfold propagate at h
  split at h
  · rename_i g₁ hg
    cases h
    exact ⟨g₁, hg, rfl⟩
  · cases h

theorem shrunk_propagate (h : g.propagate = (.ok (), g')) : g.Shrunk g' := by
  obtain ⟨g₁, hg, rfl⟩ := propagate_eq_ok h
  have hs := shrunk_executeAll g.schedule g.settled
  rw [hg] at hs
  refine ⟨hs.methods, hs.issued, hs.methodsIssued, fun m hm => ?_⟩
  exact absurd (hs.pending m hm) (OrderedSet.not_mem_empty m)

/-- Nothing has happened since the last propagation. -/
def Quiet (g : Dataflow V) : Prop := (∀ c, c ∉ g.changed) ∧ ∀ m, m ∉ g.pending

theorem quiet_propagate (h : g.propagate = (.ok (), g')) : g'.Quiet := by
  obtain ⟨g₁, hg, rfl⟩ := propagate_eq_ok h
  have hs := shrunk_executeAll g.schedule g.settled
  rw [hg] at hs
  refine ⟨fun c => OrderedSet.not_mem_empty c, fun m hm => ?_⟩
  exact absurd (hs.pending m hm) (OrderedSet.not_mem_empty m)

/-! ### Methods know cells that exist -/

/-- Methods read and write cells that have been handed out. -/
def Wired (g : Dataflow V) : Prop :=
  ∀ m i, g.methods.find? m = some i → ∀ c ∈ i.inputs ++ i.outputs, c.serial ≤ g.cells.issued

theorem Wired.shrunk (h : g.Wired) (hs : g.Shrunk g') : g'.Wired := by
  intro m i hi c hc
  rw [hs.issued]
  exact h m i (hs.methods m i hi) c hc

theorem Wired.addCell (h : g.Wired) (label : String) (multi : Bool) (v : Option V) :
    (g.addCell label multi v).2.Wired :=
  fun m i hi c hc => Nat.le_succ_of_le (h m i hi c hc)

/-- A method is installed under a new key if its cells exist. -/
theorem addMethod_eq_ok {method : Method V} {inputs outputs : List (CellId V)}
    (h : g.addMethod method inputs outputs = .ok (m, g')) :
    m = g.methods.nextKey ∧ (∀ c ∈ inputs ++ outputs, c ∈ g.cells.keys) ∧
      g' = g.install ⟨method, inputs, outputs⟩ := by
  unfold addMethod at h
  split at h
  · cases h
  · rename_i hcells
    split at h
    · cases h
    · cases h
      refine ⟨rfl, fun c hc => ?_, rfl⟩
      rw [List.any_eq_true, not_exists] at hcells
      have hcontains : g.cells.contains c = true := by simpa using mt (And.intro hc) (hcells c)
      exact Registry.contains_iff.1 hcontains

theorem Wired.addMethod {method : Method V} {inputs outputs : List (CellId V)} (h : g.Wired)
    (ha : g.addMethod method inputs outputs = .ok (m, g')) :
    g'.Wired ∧ g'.cells.issued = g.cells.issued := by
  obtain ⟨-, hcells, rfl⟩ := addMethod_eq_ok ha
  refine ⟨fun j i hi c hc => ?_, rfl⟩
  rcases Registry.find?_insert_eq_some.1 hi with hi | ⟨-, rfl⟩
  · exact h j i hi c hc
  · exact (g.cells.bounded c (hcells c hc)).2

/-! ### Old and new parts -/

/-- The cells of `g₀` are in `g` as they were, and nothing that is new, has changed or is pending in
`g` reaches them. -/
structure Apart (g₀ g : Dataflow V) : Prop where
  cells : ∀ c, c.serial ≤ g₀.cells.issued → g.cells.find? c = g₀.cells.find? c
  cellsIssued : g₀.cells.issued ≤ g.cells.issued
  methodsIssued : g₀.methods.issued ≤ g.methods.issued
  old : ∀ m i, g.methods.find? m = some i → m.serial ≤ g₀.methods.issued →
    ∀ c ∈ i.inputs ++ i.outputs, c.serial ≤ g₀.cells.issued
  new : ∀ m i, g.methods.find? m = some i → g₀.methods.issued < m.serial →
    ∀ c ∈ i.outputs, g₀.cells.issued < c.serial
  changed : ∀ c ∈ g.changed, g₀.cells.issued < c.serial
  pending : ∀ m ∈ g.pending, g₀.methods.issued < m.serial

theorem Wired.apart (h : g.Wired) (hq : g.Quiet) : g.Apart g where
  cells := fun _ _ => rfl
  cellsIssued := Nat.le_refl _
  methodsIssued := Nat.le_refl _
  old := fun m i hi _ => h m i hi
  new := fun m _ hi hlt =>
    absurd (g.methods.bounded m (Registry.mem_keys_of_find? hi)).2 (Nat.not_le.2 hlt)
  changed := fun c hc => absurd hc (hq.1 c)
  pending := fun m hm => absurd hm (hq.2 m)

theorem Apart.addCell (h : g₀.Apart g) (label : String) (multi : Bool) (v : Option V) :
    g₀.Apart (g.addCell label multi v).2 ∧
      g₀.cells.issued < (g.addCell label multi v).1.serial := by
  have hlt : g₀.cells.issued < g.cells.nextKey.serial := Nat.lt_succ_of_le h.cellsIssued
  refine ⟨⟨fun c hc => ?_, Nat.le_succ_of_le h.cellsIssued, h.methodsIssued, h.old, h.new,
    h.changed, h.pending⟩, hlt⟩
  show (g.cells.insert _).find? c = _
  rw [Registry.find?_insert, if_neg, h.cells c hc]
  rintro rfl
  exact Nat.not_lt.2 hc hlt

theorem Apart.write (h : g₀.Apart g) (hc : g₀.cells.issued < c.serial) (v : Option V) :
    g₀.Apart (g.write c v) := by
  unfold Dataflow.write
  split
  · refine ⟨fun j hj => ?_, h.cellsIssued, h.methodsIssued, h.old, h.new, fun j hj => ?_,
      h.pending⟩
    · show (g.cells.modify c _).find? j = _
      rw [Registry.find?_modify, if_neg, h.cells j hj]
      rintro rfl
      exact Nat.not_lt.2 hj hc
    · rcases OrderedSet.mem_insert.1 hj with rfl | hj
      · exact hc
      · exact h.changed j hj
  · exact h

theorem Apart.foldl {α : Type} {f : Dataflow V → α → Dataflow V} {l : List α}
    (hf : ∀ g, g₀.Apart g → ∀ a ∈ l, g₀.Apart (f g a)) (h : g₀.Apart g) :
    g₀.Apart (l.foldl f g) := by
  induction l generalizing g with
  | nil => exact h
  | cons a rest ih =>
    exact ih (fun g hg b hb => hf g hg b (List.mem_cons_of_mem _ hb))
      (hf g h a List.mem_cons_self)

/-- A new method writes to new cells. -/
theorem Apart.outputs_new (h : g₀.Apart g) (hm : g₀.methods.issued < m.serial)
    (hc : c ∈ g.outputs m) : g₀.cells.issued < c.serial := by
  obtain ⟨i, hi, hc⟩ := mem_outputs hc
  exact h.new m i hi hm c hc

/-- Only new methods read a new cell. -/
theorem Apart.consumers_new (h : g₀.Apart g) (hc : g₀.cells.issued < c.serial)
    (hm : m ∈ g.consumers c) : g₀.methods.issued < m.serial := by
  obtain ⟨i, hi, hin⟩ := mem_consumers.1 hm
  refine Nat.not_le.1 fun hle => ?_
  exact Nat.not_le.2 hc (h.old m i hi hle c (List.mem_append_left _ hin))

theorem Apart.dropMethod (h : g₀.Apart g) (hm : g₀.methods.issued < m.serial) :
    g₀.Apart (g.dropMethod m) := by
  have hbare : g₀.Apart (g.uninstall m) := by
    refine ⟨h.cells, h.cellsIssued, h.methodsIssued, fun j i hj => ?_, fun j i hj => ?_, h.changed,
      fun j hj => h.pending j (OrderedSet.mem_erase.1 hj).1⟩
    · exact h.old j i (Registry.find?_erase_eq_some.1 hj).2
    · exact h.new j i (Registry.find?_erase_eq_some.1 hj).2
  exact hbare.foldl fun g' hg' c hc => hg'.write (h.outputs_new hm hc) none

theorem Apart.removeCell (h : g₀.Apart g) (hc : g₀.cells.issued < c.serial)
    (hr : g.removeCell c = .ok g') : g₀.Apart g' := by
  -- The methods around a new cell are all new.
  have haround : ∀ m ∈ g.around c, g₀.methods.issued < m.serial := by
    intro m hm
    rcases List.mem_append.1 hm with hm | hm
    · exact h.consumers_new hc hm
    · obtain ⟨i, hi, hout⟩ := find?_of_determining? (Option.mem_toList.1 hm)
      refine Nat.not_le.1 fun hle => ?_
      exact Nat.not_le.2 hc (h.old m i hi hle c (List.mem_append_right _ hout))
  unfold Dataflow.removeCell at hr
  split at hr
  · cases hr
    have hbare := h.foldl (f := Dataflow.dropMethod) (l := g.around c) fun g' hg' m hm =>
      hg'.dropMethod (haround m hm)
    refine ⟨fun j hj => ?_, hbare.cellsIssued, hbare.methodsIssued, hbare.old, hbare.new,
      fun j hj => hbare.changed j (OrderedSet.mem_erase.1 hj).1, hbare.pending⟩
    show (Registry.erase _ c).find? j = _
    rw [Registry.find?_erase, if_neg, hbare.cells j hj]
    rintro rfl
    exact Nat.not_lt.2 hj hc
  · cases hr

theorem Apart.addMethod {method : Method V} {inputs outputs : List (CellId V)} (h : g₀.Apart g)
    (hout : ∀ c ∈ outputs, g₀.cells.issued < c.serial)
    (ha : g.addMethod method inputs outputs = .ok (m, g')) :
    g₀.Apart g' ∧ g₀.methods.issued < m.serial := by
  obtain ⟨rfl, -, rfl⟩ := addMethod_eq_ok ha
  have hlt : g₀.methods.issued < g.methods.nextKey.serial := Nat.lt_succ_of_le h.methodsIssued
  refine ⟨⟨h.cells, h.cellsIssued, Nat.le_succ_of_le h.methodsIssued, fun j i hj hle => ?_,
    fun j i hj hlt' => ?_, h.changed, fun j hj => ?_⟩, hlt⟩
  · rcases Registry.find?_insert_eq_some.1 hj with hj | ⟨rfl, -⟩
    · exact h.old j i hj hle
    · exact absurd hlt (Nat.not_lt.2 hle)
  · rcases Registry.find?_insert_eq_some.1 hj with hj | ⟨-, rfl⟩
    · exact h.new j i hj hlt'
    · exact hout
  · rcases OrderedSet.mem_insert.1 hj with rfl | hj
    · exact hlt
    · exact h.pending j hj

/-! ### Propagation -/

theorem mem_nextReady {counts : WaitCounts V} {ready : List (MethodId V)}
    (h : m ∈ (g.nextReady counts ready).2) : m ∈ ready.flatMap g.followers := by
  have hfold : ∀ (l : List (MethodId V)) (state : WaitCounts V × List (MethodId V)),
      m ∈ (l.foldl release state).2 → m ∈ state.2 ∨ m ∈ l := by
    intro l
    induction l with
    | nil => exact fun state hm => .inl hm
    | cons a rest ih =>
      intro state hm
      rcases ih _ hm with hm | hm
      · -- One release adds at most the method itself.
        unfold release at hm
        split at hm
        · exact .inl hm
        · dsimp only at hm
          split at hm
          · rcases List.mem_append.1 hm with hm | hm
            · exact .inl hm
            · exact .inr (List.mem_cons.2 (.inl (List.mem_singleton.1 hm)))
          · exact .inl hm
      · exact .inr (List.mem_cons_of_mem _ hm)
  rcases hfold _ _ h with hm | hm
  · cases hm
  · exact hm

theorem forall_mem_layers {P : MethodId V → Prop} (hnext : ∀ m, P m → ∀ j ∈ g.followers m, P j)
    (n : Nat) {counts : WaitCounts V} {ready : List (MethodId V)} (hready : ∀ m ∈ ready, P m) :
    ∀ m ∈ g.layers n counts ready, P m := by
  induction n generalizing counts ready with
  | zero => exact fun m hm => by cases hm
  | succ n ih =>
    intro m hm
    rcases List.mem_append.1 hm with hm | hm
    · exact hready m hm
    · refine ih (fun j hj => ?_) m hm
      obtain ⟨i, hi, hj⟩ := List.mem_flatMap.1 (mem_nextReady hj)
      exact hnext i (hready i hi) j hj

/-- Only new methods have to run. -/
theorem Apart.schedule_new (h : g₀.Apart g) :
    ∀ m ∈ g.schedule, g₀.methods.issued < m.serial := by
  have hnext : ∀ m : MethodId V, g₀.methods.issued < m.serial →
      ∀ j ∈ g.followers m, g₀.methods.issued < j.serial := by
    intro m hm j hj
    obtain ⟨c, hc, hj⟩ := List.mem_flatMap.1 hj
    exact h.consumers_new (h.outputs_new hm hc) hj
  have haffected : ∀ m ∈ g.affected, g₀.methods.issued < m.serial := by
    refine forall_mem_explore hnext _ (fun _ hm => by cases hm) fun m hm => ?_
    rcases List.mem_append.1 hm with hm | hm
    · exact h.pending m hm
    · obtain ⟨c, hc, hm⟩ := List.mem_flatMap.1 hm
      exact h.consumers_new (h.changed c hc) hm
  exact forall_mem_layers hnext _ fun m hm => haffected m (List.mem_filter.1 hm).1

theorem Apart.executeAll {l : List (MethodId V)} (h : g₀.Apart g)
    (hl : ∀ m ∈ l, g₀.methods.issued < m.serial) : g₀.Apart (g.executeAll l).2 := by
  induction l generalizing g with
  | nil => exact h
  | cons m rest ih =>
    unfold Dataflow.executeAll
    split
    · exact h
    · rename_i g' hg
      obtain ⟨writes, hw, rfl⟩ := execute_eq_ok hg
      refine ih (h.foldl fun g' hg' w hmem => hg'.write ?_ _) fun j hj =>
        hl j (List.mem_cons_of_mem _ hj)
      exact h.outputs_new (hl m List.mem_cons_self) (hw w hmem)

/-- Propagation leaves the old cells alone. -/
theorem Apart.propagate (h : g₀.Apart g) (hp : g.propagate = (.ok (), g')) : g₀.Apart g' := by
  obtain ⟨g₁, hg, rfl⟩ := propagate_eq_ok hp
  have hsettled : g₀.Apart g.settled :=
    ⟨h.cells, h.cellsIssued, h.methodsIssued, h.old, h.new,
      fun c hc => absurd hc (OrderedSet.not_mem_empty c),
      fun m hm => absurd hm (OrderedSet.not_mem_empty m)⟩
  have hrun := hsettled.executeAll h.schedule_new
  rw [hg] at hrun
  exact ⟨hrun.cells, hrun.cellsIssued, hrun.methodsIssued, hrun.old, hrun.new,
    fun c hc => absurd hc (OrderedSet.not_mem_empty c), hrun.pending⟩

end Dataflow

end PlanarSketch
