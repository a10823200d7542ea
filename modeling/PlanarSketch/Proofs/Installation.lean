/-
Which methods are let in.

A method is let in if its cells are in use, its outputs are different and free,
and none of them leads to one of its inputs.  This is asked of the topology
before anything changes, so after any calls every cell has one method at most
and no cell or method leads back to itself.

* `Rises.exists_level`: cells and methods have levels that rise along arrows;
* `Admits`, `Formed.exists_addMethod_iff`: when a method is let in;
* `Formed.exists_addMultiMethod_iff`: when a multi-method is let in;
* `Call`, `runCalls`: calls of all kinds, and dataflows that they lead to;
* `installation_runCalls`: what holds after any calls.
-/
import PlanarSketch.Dataflow.Candidates
import PlanarSketch.Proofs.Incremental

namespace PlanarSketch.Dataflow

variable {V : Type} {g g' : Dataflow V} {c : CellId V} {m : MethodId V}
  {inputs outputs : List (CellId V)}

/-! ### Levels -/

/-- Levels of cells and methods together, where those of cells leave room for methods. -/
def nodeLevel (rank : CellId V → Nat) (height : MethodId V → Nat) : FlowNode V → Nat
  | .cell c => 2 * rank c + 2
  | .method m => 2 * height m + 1

/-- A method stands above the cells that it reads and below those that it writes. -/
theorem Rises.exists_level {rank : CellId V → Nat} (h : g.Rises rank) :
    ∃ level : FlowNode V → Nat, ∀ x y, g.Arrow x y → level x < level y := by
  classical
  -- A method stands at the rank above its highest input; doubling makes room between the cells.
  let height : MethodId V → Nat := fun m => (g.inputs m).toFinset.sup fun a => rank a + 1
  refine ⟨nodeLevel rank height, fun x y harrow => ?_⟩
  cases harrow with
  | @reads m i c hi hc =>
    have hmem : c ∈ (g.inputs m).toFinset := by
      rw [List.mem_toFinset, Dataflow.inputs, hi]
      exact hc
    have hle : rank c + 1 ≤ height m := Finset.le_sup (f := fun a => rank a + 1) hmem
    show 2 * rank c + 2 < 2 * height m + 1
    omega
  | @writes m i c hi hc =>
    have hle : height m ≤ rank c := by
      refine Finset.sup_le fun a ha => ?_
      rw [List.mem_toFinset, Dataflow.inputs, hi] at ha
      exact h m i hi a ha c hc
    show 2 * height m + 1 < 2 * rank c + 2
    omega

/-- Nothing leads back to itself. -/
theorem Formed.not_transGen_arrow (h : g.Formed) (x : FlowNode V) :
    ¬Relation.TransGen g.Arrow x x := by
  obtain ⟨rank, hrank⟩ := h.ranked
  obtain ⟨level, hlevel⟩ := hrank.exists_level
  have hrise : ∀ {a b}, Relation.TransGen g.Arrow a b → level a < level b := by
    intro a b hab
    induction hab with
    | single hstep => exact hlevel _ _ hstep
    | tail _ hstep ih => exact ih.trans (hlevel _ _ hstep)
  exact fun hx => Nat.lt_irrefl _ (hrise hx)

/-! ### Admission -/

/-- The cells are in use, the outputs are different, no method writes them, and none of them is an
input or leads to one. -/
structure Admits (g : Dataflow V) (inputs outputs : List (CellId V)) : Prop where
  known : ∀ c ∈ inputs ++ outputs, c ∈ g.cells.keys
  distinct : outputs.Nodup
  free : ∀ c ∈ outputs, ∀ m i, g.methods.find? m = some i → c ∉ i.outputs
  forward : ∀ c ∈ outputs, ∀ a ∈ inputs, ¬Relation.ReflTransGen g.Arrow (.cell c) (.cell a)

theorem addMethod_eq_error {method : Method V} {e : DataflowError}
    (h : g.addMethod method inputs outputs = .error e) :
    (∃ c ∈ inputs ++ outputs, c ∉ g.cells.keys) ∨
      g.checkOutputs method.name inputs [] outputs = .error e := by
  unfold addMethod at h
  split at h
  · rename_i hunknown
    obtain ⟨c, hc, hno⟩ := List.any_eq_true.1 hunknown
    refine .inl ⟨c, hc, fun hkey => ?_⟩
    rw [Registry.contains_iff.2 hkey] at hno
    cases hno
  · split at h
    · rename_i hcheck
      cases h
      exact .inr hcheck
    · cases h

/-- The checks on the outputs pass if they are different, free, and lead to no input. -/
theorem Formed.checkOutputs_eq_ok_iff (h : g.Formed) {name : String}
    (hknown : ∀ c ∈ inputs ++ outputs, c ∈ g.cells.keys) :
    g.checkOutputs name inputs [] outputs = .ok () ↔ g.Admits inputs outputs := by
  -- The search decides whether the graph of cells and methods has a path.
  have hlead : ∀ c ∈ outputs, ∀ a, g.leadsTo c a = false ↔
      ¬Relation.ReflTransGen g.Arrow (.cell c) (.cell a) := by
    intro c hc a
    rw [← Bool.not_eq_true, h.leadsTo_iff (hknown c (List.mem_append_right _ hc)),
      reaches_cell_iff]
  have hfree : ∀ c, g.determining? c = none ↔
      ∀ m i, g.methods.find? m = some i → c ∉ i.outputs := by
    intro c
    rw [Option.eq_none_iff_forall_ne_some]
    simp only [ne_eq, h.determining?_eq_some, not_exists, not_and]
  rw [checkOutputs_eq_ok]
  constructor
  · rintro ⟨hnodup, hall⟩
    exact ⟨hknown, hnodup, fun c hc => (hfree c).1 (hall c hc).2.1,
      fun c hc a ha => (hlead c hc a).1 ((hall c hc).2.2 a ha)⟩
  · intro hadmits
    exact ⟨hadmits.distinct, fun c hc => ⟨List.not_mem_nil, (hfree c).2 (hadmits.free c hc),
      fun a ha => (hlead c hc a).2 (hadmits.forward c hc a ha)⟩⟩

/-- A method is let in just when it is admitted, and then it is there. -/
theorem Formed.exists_addMethod_iff (h : g.Formed) (method : Method V) :
    (∃ m g', g.addMethod method inputs outputs = .ok (m, g') ∧
      g'.methods.find? m = some ⟨method, inputs, outputs⟩) ↔ g.Admits inputs outputs := by
  constructor
  · rintro ⟨m, g', hok, -⟩
    obtain ⟨-, hknown, -⟩ := addMethod_eq_ok hok
    exact (h.checkOutputs_eq_ok_iff hknown).1 (checkOutputs_of_addMethod hok)
  · intro hadmits
    match hr : g.addMethod method inputs outputs with
    | .ok (m, g') => exact ⟨m, g', rfl, (find?_addMethod hr).2 (.inr ⟨rfl, rfl⟩)⟩
    | .error e =>
      rcases addMethod_eq_error hr with ⟨c, hc, hno⟩ | hcheck
      · exact absurd (hadmits.known c hc) hno
      · rw [(h.checkOutputs_eq_ok_iff hadmits.known).2 hadmits] at hcheck
        cases hcheck

section Candidates

variable {T : Type} [BEq T] {g : Dataflow (List T)} {inputs outputs : List (CellId (List T))}
  {method : MultiMethod T}

/-- A multi-method is installed as its lift. -/
theorem addMultiMethod_eq_ok_iff {r : MethodId (List T) × Dataflow (List T)} :
    g.addMultiMethod method inputs outputs = .ok r ↔
      (∃ c, outputs = [c] ∧ c ∈ g.cells.keys ∧ g.isMulti c = true) ∧
        g.addMethod method.lift inputs outputs = .ok r := by
  unfold addMultiMethod
  split
  · rename_i c
    simp only [List.cons.injEq, and_true, exists_eq_left', Bool.not_eq_true',
      ← Registry.contains_iff]
    split
    · rename_i hno
      exact iff_of_false nofun fun h => by simp [hno] at h
    · split
      · rename_i hno
        exact iff_of_false nofun fun h => by simp [hno] at h
      · rename_i hknown hmulti
        exact (and_iff_right ⟨by simpa using hknown, by simpa using hmulti⟩).symm
  · -- There is not exactly one output.
    rename_i hmany
    refine iff_of_false nofun ?_
    rintro ⟨⟨c, rfl, -⟩, -⟩
    exact hmany c rfl

/-- A multi-method is let in just when it is admitted with one output, a cell for candidates. -/
theorem Formed.exists_addMultiMethod_iff (h : g.Formed) (method : MultiMethod T) :
    (∃ m g', g.addMultiMethod method inputs outputs = .ok (m, g') ∧
      g'.methods.find? m = some ⟨method.lift, inputs, outputs⟩) ↔
      g.Admits inputs outputs ∧ ∃ c, outputs = [c] ∧ g.isMulti c = true := by
  simp only [addMultiMethod_eq_ok_iff, and_assoc, exists_and_left, h.exists_addMethod_iff]
  rw [and_comm]
  refine and_congr_right fun hadmits => exists_congr fun c => and_congr_right fun hc => ?_
  exact and_iff_right (hadmits.known c (List.mem_append_right _ (hc ▸ List.mem_cons_self)))

end Candidates

/-! ### Runs -/

/-- A call of any kind.  A multi-method needs lists of candidates for values. -/
inductive Call : Type → Type 1 where
  | basic {V : Type} (op : Operation V) : Call V
  | addMultiMethod {T : Type} [BEq T] (method : MultiMethod T)
      (inputs outputs : List (CellId (List T))) : Call (List T)

/-- What a call makes of a dataflow.  One that is refused changes nothing. -/
def call : {V : Type} → Dataflow V → Call V → Dataflow V
  | _, g, .basic op => g.perform op
  | _, g, @Call.addMultiMethod _ _ method inputs outputs =>
    ((g.addMultiMethod method inputs outputs).toOption.map Prod.snd).getD g

/-- The dataflow after a list of calls, whatever they return. -/
def runCalls (calls : List (Call V)) : Dataflow V := calls.foldl call empty

theorem Formed.call (h : g.Formed) (k : Call V) : (g.call k).Formed := by
  cases k with
  | basic op => exact h.perform op
  | addMultiMethod method inputs outputs =>
    show (((g.addMultiMethod method inputs outputs).toOption.map Prod.snd).getD g).Formed
    match hr : g.addMultiMethod method inputs outputs with
    | .error e => exact h
    | .ok (m, g') => exact h.addMethod (addMultiMethod_eq_ok_iff.1 hr).2

theorem formed_runCalls (calls : List (Call V)) : (runCalls calls).Formed := by
  have hfold : ∀ (calls : List (Call V)) (g : Dataflow V), g.Formed →
      (calls.foldl Dataflow.call g).Formed := by
    intro calls
    induction calls with
    | nil => exact fun _ hg => hg
    | cons k rest ih => exact fun g hg => ih _ (hg.call k)
  exact hfold calls empty sane_empty.formed

/-- After any calls every cell is an output of one method at most, nothing leads back to itself, and
the topology has just the edges from inputs to methods and from methods to outputs.  A method is let
in just when its cells are in use and its outputs are different, free and lead to none of its
inputs; a multi-method also needs to have one output, a cell for candidates.  What is not let in
changes nothing. -/
theorem installation_runCalls :
    (∀ (V : Type) (calls : List (Call V)),
      (∀ c m m' i i', (runCalls calls).methods.find? m = some i →
        (runCalls calls).methods.find? m' = some i' → c ∈ i.outputs → c ∈ i'.outputs → m = m') ∧
      (∀ x, ¬Relation.TransGen (runCalls calls).Arrow x x) ∧
      (∀ x y, (runCalls calls).topology.hasEdge x y = true ↔ (runCalls calls).Arrow x y) ∧
      ∀ method inputs outputs,
        ((∃ m g', (runCalls calls).addMethod method inputs outputs = .ok (m, g') ∧
          g'.methods.find? m = some ⟨method, inputs, outputs⟩) ↔
          (runCalls calls).Admits inputs outputs) ∧
        ∀ e, (runCalls calls).addMethod method inputs outputs = .error e →
          (runCalls calls).call (.basic (.addMethod method inputs outputs)) = runCalls calls) ∧
    ∀ (T : Type) [BEq T] (calls : List (Call (List T))) (method : MultiMethod T) inputs outputs,
      ((∃ m g', (runCalls calls).addMultiMethod method inputs outputs = .ok (m, g') ∧
        g'.methods.find? m = some ⟨method.lift, inputs, outputs⟩) ↔
        (runCalls calls).Admits inputs outputs ∧
          ∃ c, outputs = [c] ∧ (runCalls calls).isMulti c = true) ∧
      ∀ e, (runCalls calls).addMultiMethod method inputs outputs = .error e →
        (runCalls calls).call (.addMultiMethod method inputs outputs) = runCalls calls := by
  constructor
  · intro V calls
    have h := formed_runCalls calls
    refine ⟨fun c m m' i i' => h.once m m' i i' c, h.not_transGen_arrow, h.charted.hasEdge_iff,
      fun method inputs outputs => ⟨h.exists_addMethod_iff method, fun e he => ?_⟩⟩
    show (((runCalls calls).addMethod method inputs outputs).toOption.map Prod.snd).getD _ = _
    rw [he]
    rfl
  · intro T _ calls method inputs outputs
    have h := formed_runCalls calls
    refine ⟨h.exists_addMultiMethod_iff method, fun e he => ?_⟩
    show (((runCalls calls).addMultiMethod method inputs outputs).toOption.map Prod.snd).getD _ = _
    rw [he]
    rfl

end PlanarSketch.Dataflow
