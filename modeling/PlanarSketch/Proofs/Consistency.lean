/-
Propagation leaves every method consistent.

A method is consistent if its outputs hold what it computes from its inputs.
A change makes methods inconsistent, but only such that are downstream of
something that is marked as changed or pending, and those are the ones that
the next propagation runs.

* `value?_writeAll`, `map_value?_writeAll`: what writing to cells does;
* `Consistent`, `Formed.consistent_execute`: a method is consistent after it
  has run;
* `Tracked`: what is inconsistent awaits a propagation;
* `Formed.consistent_propagate`: after a propagation that succeeds every method
  is consistent;
* `Sane`: formed and tracked, kept by every change of cells and methods
  (`Sane.set`, `Sane.addMethod`, `Sane.dropMethod`, `Sane.removeCell`).
-/
import PlanarSketch.Proofs.Schedule

namespace PlanarSketch.Dataflow

variable {V : Type} {g g' : Dataflow V} {a b c : CellId V} {j k m : MethodId V} {i : Installed V}

/-! ### Writing to cells -/

theorem write_of_not_mem (h : a ∉ g.cells.keys) (v : Option V) : g.write a v = g := by
  unfold write
  rw [if_neg (mt Registry.contains_iff.1 h)]

theorem write_of_mem (h : a ∈ g.cells.keys) (v : Option V) : g.write a v =
    { g with
      cells := g.cells.modify a fun cell => { cell with value := v }
      changed := g.changed.insert a } := by
  unfold write
  rw [if_pos (Registry.contains_iff.2 h)]

theorem value?_eq_none (h : c ∉ g.cells.keys) : g.value? c = none := by
  unfold value?
  rw [Registry.find?_eq_none.2 h]
  rfl

theorem value?_write (h : a ∈ g.cells.keys) (v : Option V) :
    (g.write a v).value? c = if a = c then v else g.value? c := by
  rw [write_of_mem h]
  show ((g.cells.modify a _).find? c).bind Cell.value = _
  rw [Registry.find?_modify]
  by_cases he : a = c
  · obtain ⟨cell, hcell⟩ := Registry.mem_keys_iff.1 (he ▸ h)
    rw [if_pos he, if_pos he, hcell]
    rfl
  · rw [if_neg he, if_neg he]
    rfl

/-- Writing changes neither the methods nor which cells there are. -/
theorem write_frame (g : Dataflow V) (a : CellId V) (v : Option V) :
    (g.write a v).methods = g.methods ∧ (g.write a v).pending = g.pending ∧
      (g.write a v).cells.keys = g.cells.keys := by
  unfold write
  split
  · exact ⟨rfl, rfl, Registry.keys_modify ..⟩
  · exact ⟨rfl, rfl, rfl⟩

@[simp] theorem topology_write (g : Dataflow V) (a : CellId V) (v : Option V) :
    (g.write a v).topology = g.topology := by
  unfold write
  split <;> rfl

theorem mem_changed_write {v : Option V} :
    c ∈ (g.write a v).changed ↔ c ∈ g.changed ∨ c = a ∧ a ∈ g.cells.keys := by
  by_cases h : a ∈ g.cells.keys
  · rw [write_of_mem h, OrderedSet.mem_insert, or_comm]
    simp [h]
  · rw [write_of_not_mem h]
    simp [h]

theorem writeAll_frame (g : Dataflow V) (writes : List (CellId V × Option V)) :
    (g.writeAll writes).methods = g.methods ∧ (g.writeAll writes).pending = g.pending ∧
      (g.writeAll writes).cells.keys = g.cells.keys := by
  induction writes generalizing g with
  | nil => exact ⟨rfl, rfl, rfl⟩
  | cons w rest ih =>
    obtain ⟨hm, hp, hk⟩ := write_frame g w.1 w.2
    obtain ⟨hm', hp', hk'⟩ := ih (g.write w.1 w.2)
    exact ⟨hm'.trans hm, hp'.trans hp, hk'.trans hk⟩

@[simp] theorem topology_writeAll (g : Dataflow V) (writes : List (CellId V × Option V)) :
    (g.writeAll writes).topology = g.topology := by
  induction writes generalizing g with
  | nil => rfl
  | cons w rest ih => exact (ih (g.write w.1 w.2)).trans (topology_write ..)

theorem mem_changed_writeAll {writes : List (CellId V × Option V)} :
    c ∈ (g.writeAll writes).changed ↔
      c ∈ g.changed ∨ c ∈ writes.map Prod.fst ∧ c ∈ g.cells.keys := by
  induction writes generalizing g with
  | nil => simp [writeAll]
  | cons w rest ih =>
    show c ∈ ((g.write w.1 w.2).writeAll rest).changed ↔ _
    rw [ih, mem_changed_write, (write_frame g w.1 w.2).2.2, List.map_cons, List.mem_cons]
    constructor
    · rintro ((hc | ⟨rfl, hc⟩) | ⟨hc, hk⟩)
      · exact .inl hc
      · exact .inr ⟨.inl rfl, hc⟩
      · exact .inr ⟨.inr hc, hk⟩
    · rintro (hc | ⟨rfl | hc, hk⟩)
      · exact .inl (.inl hc)
      · exact .inl (.inr ⟨rfl, hk⟩)
      · exact .inr ⟨hc, hk⟩

/-- Other cells keep their values. -/
theorem value?_writeAll {writes : List (CellId V × Option V)} (h : c ∉ writes.map Prod.fst) :
    (g.writeAll writes).value? c = g.value? c := by
  induction writes generalizing g with
  | nil => rfl
  | cons w rest ih =>
    rw [List.map_cons, List.mem_cons, not_or] at h
    show ((g.write w.1 w.2).writeAll rest).value? c = _
    rw [ih h.2]
    by_cases hw : w.1 ∈ g.cells.keys
    · rw [value?_write hw, if_neg (Ne.symm h.1)]
    · rw [write_of_not_mem hw]

/-- Different cells get the values that are written to them. -/
theorem map_value?_writeAll {cells : List (CellId V)} {values : List (Option V)}
    (hnodup : cells.Nodup) (hkeys : ∀ c ∈ cells, c ∈ g.cells.keys)
    (hlength : values.length = cells.length) :
    cells.map (g.writeAll (cells.zip values)).value? = values := by
  induction cells generalizing g values with
  | nil => exact (List.eq_nil_of_length_eq_zero hlength).symm
  | cons c rest ih =>
    cases values with
    | nil => cases hlength
    | cons v values =>
      obtain ⟨hc, hrest⟩ := List.nodup_cons.1 hnodup
      have hlength' : values.length = rest.length := by simpa using hlength
      have hkeys' : ∀ d ∈ rest, d ∈ (g.write c v).cells.keys := fun d hd => by
        rw [(write_frame g c v).2.2]
        exact hkeys d (List.mem_cons_of_mem _ hd)
      show List.map ((g.write c v).writeAll (rest.zip values)).value? (c :: rest) = _
      -- The later writes are to other cells, so the first value stays.
      rw [List.map_cons, ih hrest hkeys' hlength', value?_writeAll,
        value?_write (hkeys c List.mem_cons_self), if_pos rfl]
      rw [List.map_fst_zip (Nat.le_of_eq hlength'.symm)]
      exact hc

/-- Cells that are cleared are empty. -/
theorem value?_clear {cells : List (CellId V)} :
    (g.writeAll (cells.map fun c => (c, none))).value? c =
      if c ∈ cells then none else g.value? c := by
  induction cells generalizing g with
  | nil => rfl
  | cons a rest ih =>
    show ((g.write a none).writeAll (rest.map fun c => (c, none))).value? c = _
    rw [ih]
    by_cases hrest : c ∈ rest
    · simp [hrest]
    · -- Only a cell that is there can be written to, and one that is not has no value anyway.
      by_cases ha : a ∈ g.cells.keys
      · rw [if_neg hrest, value?_write ha]
        by_cases he : a = c
        · simp [he]
        · simp [he, Ne.symm he, hrest]
      · rw [if_neg hrest, write_of_not_mem ha]
        by_cases he : a = c
        · simp [← he, value?_eq_none ha]
        · simp [Ne.symm he, hrest]

/-! ### Consistent methods -/

/-- The outputs hold what the method computes from the inputs, or nothing if an input is not set. -/
def Consistent (g : Dataflow V) (i : Installed V) : Prop :=
  g.results i = .ok (i.outputs.map g.value?)

theorem results_congr (h : ∀ c ∈ i.inputs, g'.value? c = g.value? c) :
    g'.results i = g.results i := by
  have hargs : g'.arguments? i = g.arguments? i := mapM_congr h
  unfold results
  rw [hargs]

theorem Consistent.congr (h : g.Consistent i)
    (hv : ∀ c ∈ i.inputs ++ i.outputs, g'.value? c = g.value? c) : g'.Consistent i := by
  unfold Consistent
  rw [results_congr fun c hc => hv c (List.mem_append_left _ hc), h]
  refine congrArg Except.ok (List.map_congr_left fun c hc => ?_)
  exact (hv c (List.mem_append_right _ hc)).symm

theorem length_results {values : List (Option V)} (h : g.results i = .ok values) :
    values.length = i.outputs.length := by
  unfold results at h
  split at h
  · cases h
    simp
  · split at h
    · cases h
    · split at h
      · rename_i hlength
        cases h
        simpa using hlength
      · cases h

/-- Running a method writes its results to its outputs. -/
theorem exists_results_of_execute (h : g.execute m = .ok g') :
    ∃ i values, g.methods.find? m = some i ∧ g.results i = .ok values ∧
      g' = g.writeAll (i.outputs.zip values) := by
  unfold execute at h
  split at h
  · cases h
  · rename_i i hi
    split at h
    · cases h
    · rename_i values hv
      cases h
      exact ⟨i, values, hi, hv, rfl⟩

theorem execute_of_results {values : List (Option V)} (hi : g.methods.find? m = some i)
    (hv : g.results i = .ok values) : g.execute m = .ok (g.writeAll (i.outputs.zip values)) := by
  unfold execute
  rw [hi]
  dsimp only
  rw [hv]

/-- Values play no part. -/
theorem Formed.congr (h : g.Formed) (hm : g'.methods = g.methods)
    (hk : g'.cells.keys = g.cells.keys) (ht : g'.topology = g.topology)
    (hp : ∀ m ∈ g'.pending, m ∈ g.pending) : g'.Formed := by
  refine ⟨fun m i hi c hc => hk ▸ h.cells m i (hm ▸ hi) c hc, ?_, ?_, ?_, fun m hm' => ?_,
    h.charted.congr ht hm hk⟩
  · rw [hm]
    exact h.once
  · rw [hm]
    exact h.distinct
  · unfold Rises
    rw [hm]
    exact h.ranked
  · rw [hm]
    exact h.pending m (hp m hm')

theorem Formed.writeAll (h : g.Formed) (writes : List (CellId V × Option V)) :
    (g.writeAll writes).Formed := by
  obtain ⟨hm, hp, hk⟩ := writeAll_frame g writes
  exact h.congr hm hk (topology_writeAll ..) fun m hm' => hp ▸ hm'

theorem outputs_congr (h : g'.methods = g.methods) : g'.outputs m = g.outputs m := by
  unfold outputs
  rw [h]

theorem followers_congr (h : g'.methods = g.methods) : g'.followers m = g.followers m := by
  unfold followers outputs consumers
  rw [h]

/-- A method is consistent after it has run. -/
theorem Formed.consistent_execute (h : g.Formed) (he : g.execute m = .ok g')
    (hi : g.methods.find? m = some i) : g'.Consistent i := by
  obtain ⟨i', values, hi', hv, rfl⟩ := exists_results_of_execute he
  obtain rfl := Option.some_inj.1 (hi'.symm.trans hi)
  have hlength := length_results hv
  have hfst : (i'.outputs.zip values).map Prod.fst = i'.outputs :=
    List.map_fst_zip (Nat.le_of_eq hlength.symm)
  obtain ⟨rank, hrank⟩ := h.ranked
  unfold Consistent
  rw [results_congr fun c hc => value?_writeAll ?_, hv, map_value?_writeAll (h.distinct m i' hi)
    (fun c hc => h.cells m i' hi c (List.mem_append_right _ hc)) hlength]
  -- A method does not read what it writes.
  rw [hfst]
  exact fun hout => Nat.lt_irrefl _ (hrank m i' hi c hc c hout)

/-- Running a method keeps those consistent that do not follow it. -/
theorem Formed.consistent_of_execute (h : g.Formed) (he : g.execute j = .ok g')
    (hi : g.methods.find? m = some i) (hc : g.Consistent i) (hne : j ≠ m)
    (hm : m ∉ g.followers j) : g'.Consistent i := by
  obtain ⟨i', values, hi', hv, rfl⟩ := exists_results_of_execute he
  refine hc.congr fun c hmem => value?_writeAll ?_
  rw [List.map_fst_zip (Nat.le_of_eq (length_results hv).symm)]
  intro hout
  rcases List.mem_append.1 hmem with hin | hout'
  · exact hm (mem_followers.2 ⟨i', i, c, hi', hi, hout, hin⟩)
  · exact hne (h.once j m i' i c hi' hi hout hout')

theorem Formed.execute (h : g.Formed) (he : g.execute m = .ok g') :
    g'.Formed ∧ g'.methods = g.methods ∧ g'.cells.keys = g.cells.keys := by
  obtain ⟨i, values, -, -, rfl⟩ := exists_results_of_execute he
  obtain ⟨hm, -, hk⟩ := writeAll_frame g (i.outputs.zip values)
  exact ⟨h.writeAll _, hm, hk⟩

/-! ### Running a schedule -/

theorem executeAll_cons {l : List (MethodId V)} (h : g.executeAll (m :: l) = (.ok (), g')) :
    ∃ g₁, g.execute m = .ok g₁ ∧ g₁.executeAll l = (.ok (), g') := by
  rw [executeAll] at h
  split at h
  · cases h
  · rename_i g₁ hg
    exact ⟨g₁, hg, h⟩

/-- Whether or not a method fails on the way, nothing but values changes. -/
theorem Formed.executeAll {l : List (MethodId V)} {r : Except DataflowError Unit} (h : g.Formed)
    (hx : g.executeAll l = (r, g')) :
    g'.Formed ∧ g'.methods = g.methods ∧ g'.cells.keys = g.cells.keys := by
  induction l generalizing g with
  | nil =>
    cases hx
    exact ⟨h, rfl, rfl⟩
  | cons m rest ih =>
    rw [Dataflow.executeAll] at hx
    split at hx
    · cases hx
      exact ⟨h, rfl, rfl⟩
    · rename_i g₁ he
      obtain ⟨h₁, hm, hk⟩ := h.execute he
      obtain ⟨h', hm', hk'⟩ := ih h₁ hx
      exact ⟨h', hm'.trans hm, hk'.trans hk⟩

theorem Formed.consistent_executeAll {l : List (MethodId V)} (h : g.Formed)
    (hx : g.executeAll l = (.ok (), g')) (hi : g.methods.find? m = some i) (hc : g.Consistent i)
    (hl : ∀ j ∈ l, j ≠ m ∧ m ∉ g.followers j) : g'.Consistent i := by
  induction l generalizing g with
  | nil =>
    cases hx
    exact hc
  | cons j rest ih =>
    obtain ⟨g₁, he, hx⟩ := executeAll_cons hx
    obtain ⟨h₁, hm, -⟩ := h.execute he
    obtain ⟨hne, hf⟩ := hl j List.mem_cons_self
    refine ih h₁ hx (hm ▸ hi) (h.consistent_of_execute he hi hc hne hf) fun k hk => ?_
    rw [followers_congr hm]
    exact hl k (List.mem_cons_of_mem _ hk)

/-- A method whose last run comes after all that it reads is consistent in the end. -/
theorem Formed.consistent_of_runsLast {l : List (MethodId V)} (h : g.Formed)
    (hx : g.executeAll l = (.ok (), g')) (hi : g.methods.find? m = some i)
    (hl : g.RunsLast l m) : g'.Consistent i := by
  obtain ⟨before, after, rfl, hafter⟩ := hl
  induction before generalizing g with
  | nil =>
    obtain ⟨g₁, he, hx⟩ := executeAll_cons hx
    obtain ⟨h₁, hm, -⟩ := h.execute he
    refine h₁.consistent_executeAll hx (hm ▸ hi) (h.consistent_execute he hi) fun j hj => ?_
    rw [followers_congr hm]
    exact hafter j hj
  | cons j rest ih =>
    obtain ⟨g₁, he, hx⟩ := executeAll_cons hx
    obtain ⟨h₁, hm, -⟩ := h.execute he
    refine ih h₁ (hm ▸ hi) (fun k hk => ?_) hx
    rw [followers_congr hm]
    exact hafter k hk

/-! ### Propagation -/

/-- What is inconsistent awaits a propagation. -/
def Tracked (g : Dataflow V) : Prop :=
  ∀ m i, g.methods.find? m = some i → ¬g.Consistent i → g.Awaits m

/-- Every method is consistent. -/
def Current (g : Dataflow V) : Prop := ∀ m i, g.methods.find? m = some i → g.Consistent i

theorem Current.tracked (h : g.Current) : g.Tracked := fun m i hi hno => absurd (h m i hi) hno

theorem Formed.settled (h : g.Formed) : g.settled.Formed :=
  h.congr rfl rfl rfl fun m hm => absurd hm (OrderedSet.not_mem_empty m)

/-- When the first part of a schedule has run, every method is consistent that has not to run any
more. -/
theorem Formed.consistent_of_ran {ran rest : List (MethodId V)} (h : g.Formed) (ht : g.Tracked)
    (hschedule : g.schedule = ran ++ rest) (hx : g.settled.executeAll ran = (.ok (), g'))
    (hi : g.methods.find? m = some i) (hm : m ∉ rest) : g'.Consistent i := by
  by_cases haff : m ∈ g.affected
  · have hlast := h.runsLast_schedule haff
    rw [hschedule] at hlast
    exact h.settled.consistent_of_runsLast hx hi (hlast.of_append hm)
  · have hbefore : g.settled.Consistent i :=
      Classical.not_not.1 fun hno => haff (h.mem_affected_iff.2 (ht m i hi hno))
    refine h.settled.consistent_executeAll hx hi hbefore fun j hj => ?_
    have hj := h.mem_affected_of_mem_schedule (hschedule ▸ List.mem_append_left _ hj)
    exact ⟨fun e => haff (e ▸ hj), fun hf => haff (h.followers_affected j hj m hf)⟩

/-- After a propagation that succeeds every method is consistent. -/
theorem Formed.consistent_propagate (h : g.Formed) (ht : g.Tracked)
    (hp : g.propagate = (.ok (), g')) :
    g'.Formed ∧ g'.Current ∧ g'.methods = g.methods ∧ g'.cells.keys = g.cells.keys := by
  obtain ⟨g₁, hx, rfl⟩ := propagate_eq_ok hp
  obtain ⟨h₁, hm, hk⟩ := h.settled.executeAll hx
  refine ⟨h₁.congr rfl rfl rfl fun m hm => hm, fun m i hi => ?_, hm, hk⟩
  have hi₀ : g.methods.find? m = some i := by
    rw [← show g₁.methods = g.methods from hm]
    exact hi
  have hc : g₁.Consistent i :=
    h.consistent_of_ran ht (List.append_nil _).symm hx hi₀ List.not_mem_nil
  exact hc

/-! ### Changes -/

/-- What is inconsistent is still tracked after a change if what awaited a propagation still does
and all else that is not affected has its values. -/
theorem Tracked.transfer (h : g.Tracked)
    (hawait : ∀ m i, g'.methods.find? m = some i → g.Awaits m → g'.Awaits m)
    (hstep : ∀ m i, g'.methods.find? m = some i → g'.Awaits m ∨ g.methods.find? m = some i ∧
      ∀ c ∈ i.inputs ++ i.outputs, g'.value? c = g.value? c) : g'.Tracked := by
  intro m i hi hno
  rcases hstep m i hi with haw | ⟨hi₀, hv⟩
  · exact haw
  · exact hawait m i hi (h m i hi₀ fun hc => hno (hc.congr hv))

/-- More methods and marks leave no one out. -/
theorem Awaits.mono (h : g.Awaits m)
    (hm : ∀ m i, g.methods.find? m = some i → g'.methods.find? m = some i)
    (hc : ∀ c ∈ g.changed, c ∈ g'.changed) (hp : ∀ m ∈ g.pending, m ∈ g'.pending) :
    g'.Awaits m := by
  have hconsumers : ∀ {c m}, m ∈ g.consumers c → m ∈ g'.consumers c := by
    intro c m hmem
    obtain ⟨i, hi, hin⟩ := mem_consumers.1 hmem
    exact mem_consumers.2 ⟨i, hm m i hi, hin⟩
  induction h with
  | pending h => exact .pending (hp _ h)
  | changed h hread => exact .changed (hc _ h) (hconsumers hread)
  | follows _ hf ih =>
    obtain ⟨i, i', c, hi, hi', hout, hin⟩ := mem_followers.1 hf
    exact .follows ih (mem_followers.2 ⟨i, i', c, hm _ i hi, hm _ i' hi', hout, hin⟩)

/-- The dataflow is formed, and what is inconsistent awaits a propagation. -/
structure Sane (g : Dataflow V) : Prop where
  formed : g.Formed
  tracked : g.Tracked

theorem Formed.addCell (h : g.Formed) (label : String) (multi : Bool) (v : Option V) :
    (g.addCell label multi v).2.Formed := by
  refine ⟨fun m i hi c hc => ?_, h.once, h.distinct, h.ranked, h.pending,
    h.charted.addCell label multi v⟩
  show c ∈ (g.cells.insert _).keys
  rw [Registry.keys_insert]
  exact List.mem_append_left _ (h.cells m i hi c hc)

theorem Sane.addCell (h : g.Sane) (label : String) (multi : Bool) (v : Option V) :
    (g.addCell label multi v).2.Sane := by
  refine ⟨h.formed.addCell label multi v, h.tracked.transfer
    (fun m i _ ha => ha.mono (fun _ _ hi => hi) (fun _ hc => hc) fun _ hp => hp)
    fun m i hi => .inr ⟨hi, fun c hc => ?_⟩⟩
  -- No method knows the new cell.
  have hne : g.cells.nextKey ≠ c := fun e =>
    g.cells.nextKey_not_mem_keys (e ▸ h.formed.cells m i hi c hc)
  show ((g.cells.insert _).find? c).bind Cell.value = _
  rw [Registry.find?_insert, if_neg hne]
  rfl

theorem Formed.write (h : g.Formed) (c : CellId V) (v : Option V) : (g.write c v).Formed := by
  obtain ⟨hm, hp, hk⟩ := write_frame g c v
  exact h.congr hm hk (topology_write ..) fun m hm' => hp ▸ hm'

/-- A cell that no method computes may be written to. -/
theorem Sane.write (h : g.Sane) (hfree : g.determining? c = none) (v : Option V) :
    (g.write c v).Sane := by
  by_cases hkey : c ∈ g.cells.keys
  · obtain ⟨hm, hp, -⟩ := write_frame g c v
    have hsame : ∀ m i, (g.write c v).methods.find? m = some i → g.methods.find? m = some i :=
      fun m i hi => hm ▸ hi
    refine ⟨h.formed.write c v, h.tracked.transfer
      (fun m i _ ha => ha.mono (fun m i hi => hm ▸ hi) (fun a ha => mem_changed_write.2 (.inl ha))
        fun m hm' => hp ▸ hm') fun m i hi => ?_⟩
    -- Who reads the cell waits from now on; for all others its value plays no part.
    by_cases hread : c ∈ i.inputs
    · exact .inl (.changed (mem_changed_write.2 (.inr ⟨rfl, hkey⟩))
        (mem_consumers.2 ⟨i, hi, hread⟩))
    · refine .inr ⟨hsame m i hi, fun a ha => ?_⟩
      rw [value?_write hkey, if_neg]
      rintro rfl
      rcases List.mem_append.1 ha with ha | ha
      · exact hread ha
      · -- Nobody computes it.
        have hdet := h.formed.determining?_eq_some.2 ⟨i, hsame m i hi, ha⟩
        rw [hfree] at hdet
        cases hdet
  · rw [write_of_not_mem hkey]
    exact h

theorem set_eq_ok {v : V} (hs : g.set c v = .ok g') : g' = g.write c (some v) := by
  unfold Dataflow.set at hs
  split at hs
  · cases hs
    rfl
  · cases hs

theorem clear_eq_ok (hs : g.clear c = .ok g') : g' = g.write c none := by
  unfold Dataflow.clear at hs
  split at hs
  · cases hs
    rfl
  · cases hs

theorem set_frame {v : V} (hs : g.set c v = .ok g') :
    g'.methods = g.methods ∧ g'.cells.keys = g.cells.keys := by
  obtain rfl := set_eq_ok hs
  exact ⟨(write_frame g c (some v)).1, (write_frame g c (some v)).2.2⟩

theorem Sane.set {v : V} (h : g.Sane) (hfree : g.determining? c = none) (hs : g.set c v = .ok g') :
    g'.Sane := by
  obtain rfl := set_eq_ok hs
  exact h.write hfree (some v)

/-! ### Removing methods -/

theorem dropMethod_eq (g : Dataflow V) (k : MethodId V) : g.dropMethod k =
    (g.uninstall k).writeAll ((g.outputs k).map fun c => (c, none)) := by
  rw [writeAll, List.foldl_map]
  rfl

theorem find?_dropMethod : (g.dropMethod k).methods.find? m = some i ↔
    k ≠ m ∧ g.methods.find? m = some i := by
  rw [dropMethod_eq, (writeAll_frame _ _).1]
  exact Registry.find?_erase_eq_some

theorem keys_dropMethod (g : Dataflow V) (k : MethodId V) :
    (g.dropMethod k).cells.keys = g.cells.keys := by
  rw [dropMethod_eq, (writeAll_frame _ _).2.2]
  rfl

theorem mem_pending_dropMethod : m ∈ (g.dropMethod k).pending ↔ m ∈ g.pending ∧ m ≠ k := by
  rw [dropMethod_eq, (writeAll_frame _ _).2.1]
  exact OrderedSet.mem_erase

theorem mem_changed_dropMethod : c ∈ (g.dropMethod k).changed ↔
    c ∈ g.changed ∨ c ∈ g.outputs k ∧ c ∈ g.cells.keys := by
  rw [dropMethod_eq, mem_changed_writeAll, List.map_map, Function.comp_def, List.map_id']
  rfl

theorem value?_dropMethod :
    (g.dropMethod k).value? c = if c ∈ g.outputs k then none else g.value? c := by
  rw [dropMethod_eq, value?_clear]
  rfl

theorem Charted.dropMethod (h : g.Charted) (k : MethodId V) : (g.dropMethod k).Charted := by
  rw [dropMethod_eq]
  exact (h.uninstall k).congr (topology_writeAll ..) (writeAll_frame _ _).1 (writeAll_frame _ _).2.2

theorem Formed.dropMethod (h : g.Formed) (k : MethodId V) : (g.dropMethod k).Formed := by
  refine ⟨fun m i hi c hc => ?_, fun m m' i i' c hi hi' => ?_, fun m i hi => ?_, ?_, fun m hm => ?_,
    h.charted.dropMethod k⟩
  · rw [keys_dropMethod]
    exact h.cells m i (find?_dropMethod.1 hi).2 c hc
  · exact h.once m m' i i' c (find?_dropMethod.1 hi).2 (find?_dropMethod.1 hi').2
  · exact h.distinct m i (find?_dropMethod.1 hi).2
  · obtain ⟨rank, hrank⟩ := h.ranked
    exact ⟨rank, fun m i hi => hrank m i (find?_dropMethod.1 hi).2⟩
  · obtain ⟨hp, hne⟩ := mem_pending_dropMethod.1 hm
    obtain ⟨i, hi⟩ := Registry.mem_keys_iff.1 (h.pending m hp)
    exact Registry.mem_keys_of_find? (find?_dropMethod.2 ⟨Ne.symm hne, hi⟩)

/-- What awaited a propagation through a method that goes reads one of its cells, which changes. -/
theorem Formed.awaits_dropMethod (h : g.Formed) (hm : g.Awaits m) (hne : k ≠ m) :
    (g.dropMethod k).Awaits m := by
  induction hm with
  | pending hp => exact .pending (mem_pending_dropMethod.2 ⟨hp, Ne.symm hne⟩)
  | changed hc hread =>
    obtain ⟨i, hi, hin⟩ := mem_consumers.1 hread
    exact .changed (mem_changed_dropMethod.2 (.inl hc))
      (mem_consumers.2 ⟨i, find?_dropMethod.2 ⟨hne, hi⟩, hin⟩)
  | @follows j m _ hf ih =>
    obtain ⟨i, i', c, hi, hi', hout, hin⟩ := mem_followers.1 hf
    have hi'' := find?_dropMethod.2 ⟨hne, hi'⟩
    -- If it followed the method that goes, it reads an output of it, which is cleared.
    by_cases he : k = j
    · refine .changed (mem_changed_dropMethod.2 (.inr ⟨?_, ?_⟩)) (mem_consumers.2 ⟨i', hi'', hin⟩)
      · rw [he, outputs, hi]
        exact hout
      · exact h.cells j i hi c (List.mem_append_right _ hout)
    · exact .follows (ih he) (mem_followers.2 ⟨i, i', c, find?_dropMethod.2 ⟨he, hi⟩, hi'', hout,
        hin⟩)

theorem Sane.dropMethod (h : g.Sane) (k : MethodId V) : (g.dropMethod k).Sane := by
  refine ⟨h.formed.dropMethod k, h.tracked.transfer
    (fun m i hi ha => h.formed.awaits_dropMethod ha (find?_dropMethod.1 hi).1) fun m i hi => ?_⟩
  obtain ⟨hne, hi₀⟩ := find?_dropMethod.1 hi
  by_cases hread : ∃ c ∈ i.inputs, c ∈ g.outputs k
  · obtain ⟨c, hin, hout⟩ := hread
    refine .inl (.changed (mem_changed_dropMethod.2 (.inr ⟨hout, ?_⟩))
      (mem_consumers.2 ⟨i, hi, hin⟩))
    exact h.formed.cells m i hi₀ c (List.mem_append_left _ hin)
  · refine .inr ⟨hi₀, fun c hc => ?_⟩
    rw [value?_dropMethod, if_neg]
    intro hout
    rcases List.mem_append.1 hc with hin | hout'
    · exact hread ⟨c, hin, hout⟩
    · obtain ⟨i', hi', hout⟩ := mem_outputs hout
      exact hne (h.formed.once k m i' i c hi' hi₀ hout hout')

theorem Formed.foldl_dropMethod (h : g.Formed) (l : List (MethodId V)) :
    (l.foldl Dataflow.dropMethod g).Formed := by
  induction l generalizing g with
  | nil => exact h
  | cons k rest ih => exact ih (h.dropMethod k)

theorem Sane.foldl_dropMethod (h : g.Sane) (l : List (MethodId V)) :
    (l.foldl Dataflow.dropMethod g).Sane := by
  induction l generalizing g with
  | nil => exact h
  | cons k rest ih => exact ih (h.dropMethod k)

theorem find?_foldl_dropMethod {l : List (MethodId V)} :
    (l.foldl Dataflow.dropMethod g).methods.find? m = some i ↔
      m ∉ l ∧ g.methods.find? m = some i := by
  induction l generalizing g with
  | nil => simp
  | cons k rest ih =>
    rw [List.foldl_cons, ih, find?_dropMethod, List.mem_cons, not_or, and_left_comm, ← and_assoc,
      ne_comm]

theorem keys_foldl_dropMethod (l : List (MethodId V)) :
    (l.foldl Dataflow.dropMethod g).cells.keys = g.cells.keys := by
  induction l generalizing g with
  | nil => rfl
  | cons k rest ih => rw [List.foldl_cons, ih, keys_dropMethod]

/-- The methods that read or write a cell. -/
theorem Formed.mem_around (h : g.Formed) : m ∈ g.around c ↔
    ∃ i, g.methods.find? m = some i ∧ c ∈ i.inputs ++ i.outputs := by
  unfold around
  rw [List.mem_append, mem_consumers, Option.mem_toList, h.determining?_eq_some]
  constructor
  · rintro (⟨i, hi, hc⟩ | ⟨i, hi, hc⟩)
    · exact ⟨i, hi, List.mem_append_left _ hc⟩
    · exact ⟨i, hi, List.mem_append_right _ hc⟩
  · rintro ⟨i, hi, hc⟩
    exact (List.mem_append.1 hc).imp (fun hc => ⟨i, hi, hc⟩) fun hc => ⟨i, hi, hc⟩

/-- A cell goes with the methods that know it, and no other method notices. -/
theorem Formed.removeCell_eq_ok (h : g.Formed) (hr : g.removeCell c = .ok g') :
    (∀ m i, g'.methods.find? m = some i ↔
      g.methods.find? m = some i ∧ c ∉ i.inputs ++ i.outputs) ∧
      ∀ a, a ∈ g'.cells.keys ↔ a ∈ g.cells.keys ∧ a ≠ c := by
  unfold removeCell at hr
  split at hr
  · cases hr
    refine ⟨fun m i => ?_, fun a => ?_⟩
    · show ((g.around c).foldl Dataflow.dropMethod g).methods.find? m = some i ↔ _
      rw [find?_foldl_dropMethod, and_comm, h.mem_around]
      refine and_congr_right fun hi => not_congr ⟨?_, fun hc => ⟨i, hi, hc⟩⟩
      rintro ⟨i', hi', hc⟩
      exact Option.some_inj.1 (hi'.symm.trans hi) ▸ hc
    · show a ∈ (((g.around c).foldl Dataflow.dropMethod g).cells.erase c).keys ↔ _
      rw [Registry.keys_erase, List.mem_filter, keys_foldl_dropMethod]
      simp
  · cases hr

theorem Formed.removeCell (h : g.Formed) (hr : g.removeCell c = .ok g') : g'.Formed := by
  have hspec := h.removeCell_eq_ok hr
  unfold Dataflow.removeCell at hr
  split at hr
  · cases hr
    have hbare := h.foldl_dropMethod (g.around c)
    refine ⟨fun m i hi a ha => (hspec.2 a).2 ⟨?_, ?_⟩, hbare.once, hbare.distinct, hbare.ranked,
      hbare.pending, hbare.charted.eraseCell fun m i hi => ((hspec.1 m i).1 hi).2⟩
    · exact h.cells m i ((hspec.1 m i).1 hi).1 a ha
    · rintro rfl
      exact ((hspec.1 m i).1 hi).2 ha
  · cases hr

theorem Sane.removeCell (h : g.Sane) (hr : g.removeCell c = .ok g') : g'.Sane := by
  have hformed := h.formed.removeCell hr
  have hspec := (h.formed.removeCell_eq_ok hr).1
  unfold Dataflow.removeCell at hr
  split at hr
  · cases hr
    have hbare := h.foldl_dropMethod (g.around c)
    generalize (g.around c).foldl Dataflow.dropMethod g = bare at hbare hspec hformed
    -- Nothing that is left knows the cell.
    have hfree : ∀ m i, bare.methods.find? m = some i → c ∉ i.inputs ++ i.outputs :=
      fun m i hi => ((hspec m i).1 hi).2
    have hawait : ∀ m, bare.Awaits m →
        ({ bare with
          cells := bare.cells.erase c
          changed := bare.changed.erase c
          topology := bare.topology.removeVertex (.cell c) } : Dataflow V).Awaits m := by
      intro m hm
      induction hm with
      | pending hp => exact .pending hp
      | @changed m a ha hread =>
        refine .changed (OrderedSet.mem_erase.2 ⟨ha, ?_⟩) hread
        rintro rfl
        obtain ⟨i, hi, hin⟩ := mem_consumers.1 hread
        exact hfree m i hi (List.mem_append_left _ hin)
      | follows _ hf ih => exact .follows ih hf
    refine ⟨hformed, hbare.tracked.transfer (fun m _ _ => hawait m) fun m i hi =>
      .inr ⟨hi, fun a ha => ?_⟩⟩
    show ((bare.cells.erase c).find? a).bind Cell.value = _
    rw [Registry.find?_erase, if_neg]
    · rfl
    · rintro rfl
      exact hfree m i hi ha
  · cases hr

/-! ### Adding methods -/

/-- A cell leads to another one if a chain of methods does. -/
theorem Formed.leadsTo_iff (h : g.Formed) (ha : a ∈ g.cells.keys) : g.leadsTo a b = true ↔
    Relation.ReflTransGen (fun x y => y ∈ g.dependents x) a b :=
  h.charted.leadsTo_iff h.cells ha

/-- The outputs of a new method are different and free, and lead to none of its inputs. -/
theorem checkOutputs_eq_ok {name : String} {inputs seen outputs : List (CellId V)} :
    g.checkOutputs name inputs seen outputs = .ok () ↔ outputs.Nodup ∧ ∀ c ∈ outputs,
      c ∉ seen ∧ g.determining? c = none ∧ ∀ a ∈ inputs, g.leadsTo c a = false := by
  induction outputs generalizing seen with
  | nil => simp [checkOutputs]
  | cons c rest ih =>
    rw [checkOutputs]
    split
    · -- The first output has been seen before or is computed already.
      rename_i hbad
      refine iff_of_false (by simp) fun hgood => ?_
      obtain ⟨hseen, hdet, -⟩ := hgood.2 c List.mem_cons_self
      simp [hseen, hdet] at hbad
    · rename_i hfree
      simp only [Bool.or_eq_true, decide_eq_true_eq, not_or, Option.not_isSome_iff_eq_none] at hfree
      split
      · rename_i hcycle
        refine iff_of_false (by simp) fun hgood => ?_
        -- It leads back to an input.
        obtain ⟨a, ha, hlead⟩ := List.any_eq_true.1 hcycle
        rw [(hgood.2 c List.mem_cons_self).2.2 a ha] at hlead
        cases hlead
      · rename_i hcycle
        -- It is fine, and from now on it counts as seen.
        have hlead : ∀ a ∈ inputs, g.leadsTo c a = false := by simpa using hcycle
        rw [ih, List.nodup_cons]
        simp only [List.mem_append, List.mem_cons, List.not_mem_nil, or_false, not_or,
          forall_eq_or_imp]
        constructor
        · rintro ⟨hnodup, hall⟩
          exact ⟨⟨fun hmem => (hall c hmem).1.2 rfl, hnodup⟩, ⟨hfree.1, hfree.2, hlead⟩,
            fun d hd => ⟨(hall d hd).1.1, (hall d hd).2⟩⟩
        · rintro ⟨⟨hc, hnodup⟩, -, hall⟩
          refine ⟨hnodup, fun d hd => ⟨⟨(hall d hd).1, ?_⟩, (hall d hd).2⟩⟩
          rintro rfl
          exact hc hd

theorem checkOutputs_of_addMethod {method : Method V} {inputs outputs : List (CellId V)}
    (h : g.addMethod method inputs outputs = .ok (m, g')) :
    g.checkOutputs method.name inputs [] outputs = .ok () := by
  unfold addMethod at h
  split at h
  · cases h
  · split at h
    · cases h
    · rename_i hcheck
      exact hcheck

theorem find?_addMethod {method : Method V} {inputs outputs : List (CellId V)}
    (h : g.addMethod method inputs outputs = .ok (m, g')) : g'.methods.find? j = some i ↔
      g.methods.find? j = some i ∨ j = m ∧ i = ⟨method, inputs, outputs⟩ := by
  obtain ⟨rfl, -, rfl⟩ := addMethod_eq_ok h
  exact Registry.find?_insert_eq_some

theorem cells_addMethod {method : Method V} {inputs outputs : List (CellId V)}
    (h : g.addMethod method inputs outputs = .ok (m, g')) : g'.cells = g.cells := by
  obtain ⟨-, -, rfl⟩ := addMethod_eq_ok h
  rfl

/-- A method whose outputs lead to none of its inputs leaves room for ranks: everything that can be
reached from its outputs moves up. -/
theorem Rises.addMethod {rank : CellId V → Nat} {inputs outputs : List (CellId V)}
    (h : g.Rises rank) (hlead : ∀ c ∈ outputs, ∀ a ∈ inputs,
      ¬Relation.ReflTransGen (fun x y => y ∈ g.dependents x) c a) :
    ∃ rank' : CellId V → Nat, g.Rises rank' ∧ ∀ a ∈ inputs, ∀ b ∈ outputs, rank' a < rank' b := by
  classical
  let above : CellId V → Prop := fun c =>
    ∃ o ∈ outputs, Relation.ReflTransGen (fun x y => y ∈ g.dependents x) o c
  let lift := inputs.toFinset.sup fun a => rank a + 1
  -- All that lies above an output moves up by the same amount, which is more than every rank of an
  -- input.
  refine ⟨fun c => if above c then rank c + lift else rank c, fun m i hi a ha b hb => ?_,
    fun a ha b hb => ?_⟩
  · -- If `a` moves up, so does `b`, which can be reached from it.
    have hlt := h m i hi a ha b hb
    dsimp only
    by_cases habove : above a
    · obtain ⟨o, ho, hreach⟩ := habove
      have hb' : above b := ⟨o, ho, hreach.tail (mem_dependents.2 ⟨m, i, hi, ha, hb⟩)⟩
      rw [if_pos ⟨o, ho, hreach⟩, if_pos hb']
      omega
    · rw [if_neg habove]
      split <;> omega
  · -- No input moves up, and every output does.
    have hnot : ¬above a := by
      rintro ⟨o, ho, hreach⟩
      exact hlead o ho a ha hreach
    have hlift : rank a + 1 ≤ lift :=
      Finset.le_sup (f := fun a => rank a + 1) (List.mem_toFinset.2 ha)
    dsimp only
    rw [if_neg hnot, if_pos ⟨b, hb, .refl⟩]
    omega

theorem Formed.addMethod {method : Method V} {inputs outputs : List (CellId V)} (h : g.Formed)
    (ha : g.addMethod method inputs outputs = .ok (m, g')) : g'.Formed := by
  obtain ⟨hnodup, hcheck⟩ := checkOutputs_eq_ok.1 (checkOutputs_of_addMethod ha)
  obtain ⟨rfl, hcells, rfl⟩ := addMethod_eq_ok ha
  -- What the check of the outputs has found: nobody computes them, and they lead to no input.
  have hfree : ∀ j i c, g.methods.find? j = some i → c ∈ i.outputs → c ∉ outputs := by
    intro j i c hi hc hout
    have hdet := h.determining?_eq_some.2 ⟨i, hi, hc⟩
    rw [(hcheck c hout).2.1] at hdet
    cases hdet
  have hlead : ∀ c ∈ outputs, ∀ a ∈ inputs,
      ¬Relation.ReflTransGen (fun x y => y ∈ g.dependents x) c a := by
    intro c hc a ha hreach
    have htrue := (h.leadsTo_iff (hcells c (List.mem_append_right _ hc))).2 hreach
    rw [(hcheck c hc).2.2 a ha] at htrue
    cases htrue
  constructor
  · intro j i hi
    rcases Registry.find?_insert_eq_some.1 hi with hi | ⟨-, rfl⟩
    · exact h.cells j i hi
    · exact hcells
  · -- No cell has two methods, since the outputs of the new one were free.
    intro j j' i i' c hi hi' hc hc'
    rcases Registry.find?_insert_eq_some.1 hi with hi | ⟨rfl, rfl⟩
    · rcases Registry.find?_insert_eq_some.1 hi' with hi' | ⟨rfl, rfl⟩
      · exact h.once j j' i i' c hi hi' hc hc'
      · exact absurd hc' (hfree j i c hi hc)
    · rcases Registry.find?_insert_eq_some.1 hi' with hi' | ⟨rfl, rfl⟩
      · exact absurd hc (hfree j' i' c hi' hc')
      · rfl
  · intro j i hi
    rcases Registry.find?_insert_eq_some.1 hi with hi | ⟨-, rfl⟩
    · exact h.distinct j i hi
    · exact hnodup
  · -- Ranks: what lies above the new outputs moves up.
    obtain ⟨rank, hrank⟩ := h.ranked
    obtain ⟨rank', hold, hnew⟩ := hrank.addMethod hlead
    refine ⟨rank', fun j i hi => ?_⟩
    rcases Registry.find?_insert_eq_some.1 hi with hi | ⟨-, rfl⟩
    · exact hold j i hi
    · exact hnew
  · -- The new method is there when it waits.
    intro j hj
    show j ∈ (g.methods.insert _).keys
    rw [Registry.keys_insert]
    rcases OrderedSet.mem_insert.1 hj with rfl | hj
    · simp
    · exact List.mem_append_left _ (h.pending j hj)
  · exact h.charted.install hcells

theorem Sane.addMethod {method : Method V} {inputs outputs : List (CellId V)} (h : g.Sane)
    (ha : g.addMethod method inputs outputs = .ok (m, g')) : g'.Sane := by
  refine ⟨h.formed.addMethod ha, ?_⟩
  obtain ⟨rfl, -, rfl⟩ := addMethod_eq_ok ha
  refine h.tracked.transfer (fun m i _ haw => haw.mono
    (fun j i hi => Registry.find?_insert_eq_some.2 (.inl hi)) (fun _ hc => hc)
    fun j hj => OrderedSet.mem_insert.2 (.inr hj)) fun j i hj => ?_
  rcases Registry.find?_insert_eq_some.1 hj with hj | ⟨rfl, -⟩
  · exact .inr ⟨hj, fun _ _ => rfl⟩
  · exact .inl (.pending (OrderedSet.mem_insert.2 (.inl rfl)))

theorem sane_empty : (empty : Dataflow V).Sane := by
  refine ⟨⟨fun m i hi => ?_, fun m _ i _ _ hi => ?_, fun m i hi => ?_,
    ⟨fun _ => 0, fun m i hi => ?_⟩, fun m hm => ?_, charted_empty⟩, fun m i hi => ?_⟩
  all_goals first | cases hi | cases hm

end PlanarSketch.Dataflow
