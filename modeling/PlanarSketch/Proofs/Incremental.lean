/-
Propagation against evaluation from scratch.

As long as computed cells are written by their methods only and every
propagation succeeds, whatever is inconsistent awaits the next propagation.
When that succeeds, every method is consistent, and this determines the
values: a method that runs after all that it reads finds the final values of
its inputs and writes the final values of its outputs, so that running all
methods once, in any order that respects the dependencies, leads to the same
dataflow.

A propagation that fails has forgotten what it was going to run.  Its marks
are those of the methods that did run, and whatever stood behind the failing
method and reads none of their outputs awaits nothing any more.

* `Operation`, `perform`, `run`: calls, and dataflows that they lead to;
* `Sane.perform`, `sane_run`: calls that keep track of what is inconsistent;
* `Current.executeAll`: consistent values are what any order computes;
* `incremental_run`: propagation equals evaluation from scratch;
* `failed_propagation_run`: what still awaits a propagation after a failure.
-/
import Mathlib.Algebra.GroupWithZero.Nat
import PlanarSketch.Proofs.Consistency

namespace PlanarSketch.Dataflow

variable {V : Type} {g g' x : Dataflow V} {c : CellId V} {j m : MethodId V} {i : Installed V}

/-! ### Runs -/

/-- A call. -/
inductive Operation (V : Type) where
  | addCell (label : String) (multi : Bool) (value : Option V)
  | removeCell (c : CellId V)
  | set (c : CellId V) (value : V)
  | clear (c : CellId V)
  | addMethod (method : Method V) (inputs outputs : List (CellId V))
  | removeMethod (m : MethodId V)
  | execute (m : MethodId V)
  | propagate

/-- What a call makes of a dataflow.  One that is refused changes nothing. -/
def perform (g : Dataflow V) : Operation V → Dataflow V
  | .addCell label multi value => (g.addCell label multi value).2
  | .removeCell c => (g.removeCell c).toOption.getD g
  | .set c value => (g.set c value).toOption.getD g
  | .clear c => (g.clear c).toOption.getD g
  | .addMethod method inputs outputs =>
    ((g.addMethod method inputs outputs).toOption.map Prod.snd).getD g
  | .removeMethod m => (g.removeMethod m).toOption.getD g
  | .execute m => (g.execute m).toOption.getD g
  | .propagate => g.propagate.2

/-- The dataflow after a list of calls, whatever they return. -/
def run (ops : List (Operation V)) : Dataflow V := ops.foldl perform empty

/-- Whether a call leaves computed cells to their methods and, if it propagates, succeeds. -/
def keepsTrack (g : Dataflow V) : Operation V → Bool
  | .set c _ => (g.determining? c).isNone
  | .clear c => (g.determining? c).isNone
  | .propagate => g.propagate.1.toBool
  | _ => true

/-- Whether all calls of a run do. -/
def keepsTrackAll (g : Dataflow V) : List (Operation V) → Bool
  | [] => true
  | op :: rest => g.keepsTrack op && (g.perform op).keepsTrackAll rest

/-- What holds of a dataflow and of the result of a change holds whether or not it is refused. -/
theorem getD_toOption {P : Dataflow V → Prop} {r : Except DataflowError (Dataflow V)} (h : P g)
    (hr : ∀ g', r = .ok g' → P g') : P (r.toOption.getD g) := by
  match r, hr with
  | .error e, _ => exact h
  | .ok g', hr => exact hr g' rfl

theorem removeMethod_eq_ok (h : g.removeMethod m = .ok g') : g' = g.dropMethod m := by
  unfold removeMethod at h
  split at h
  · cases h
    rfl
  · cases h

theorem propagate_of_reply {r : Except DataflowError Unit} (h : g.propagate.1 = r) :
    g.propagate = (r, g.propagate.2) := by
  rw [← h]

/-- Whether or not it succeeds, a propagation changes nothing but values and marks. -/
theorem Formed.propagate (h : g.Formed) : g.propagate.2.Formed ∧
    g.propagate.2.methods = g.methods ∧ g.propagate.2.cells.keys = g.cells.keys := by
  rcases hx : g.settled.executeAll g.schedule with ⟨r, g₁⟩
  obtain ⟨h₁, hm, hk⟩ := h.settled.executeAll hx
  rw [Dataflow.propagate, hx]
  match r with
  | .ok () => exact ⟨h₁.congr rfl rfl rfl fun m hm => hm, hm, hk⟩
  | .error e => exact ⟨h₁, hm, hk⟩

theorem Formed.perform (h : g.Formed) (op : Operation V) : (g.perform op).Formed := by
  match op with
  | .addCell label multi value => exact h.addCell label multi value
  | .removeCell c => exact getD_toOption h fun g' hr => h.removeCell hr
  | .set c value => exact getD_toOption h fun g' hr => set_eq_ok hr ▸ h.write c (some value)
  | .clear c => exact getD_toOption h fun g' hr => clear_eq_ok hr ▸ h.write c none
  | .addMethod method inputs outputs =>
    show (((g.addMethod method inputs outputs).toOption.map Prod.snd).getD g).Formed
    match hr : g.addMethod method inputs outputs with
    | .error e => exact h
    | .ok (m, g') => exact h.addMethod hr
  | .removeMethod m => exact getD_toOption h fun g' hr => removeMethod_eq_ok hr ▸ h.dropMethod m
  | .execute m => exact getD_toOption h fun g' hr => (h.execute hr).1
  | .propagate => exact h.propagate.1

theorem formed_run (ops : List (Operation V)) : (run ops).Formed := by
  have hfold : ∀ (ops : List (Operation V)) (g : Dataflow V), g.Formed →
      (ops.foldl Dataflow.perform g).Formed := by
    intro ops
    induction ops with
    | nil => exact fun _ hg => hg
    | cons op rest ih => exact fun g hg => ih _ (hg.perform op)
  exact hfold ops empty sane_empty.formed

/-! ### Keeping track -/

/-- A method that has run is consistent, and those that read its outputs await a propagation. -/
theorem Sane.execute (h : g.Sane) (he : g.execute m = .ok g') : g'.Sane := by
  obtain ⟨hformed, hm, -⟩ := h.formed.execute he
  refine ⟨hformed, fun j i hj hno => ?_⟩
  have hj₀ : g.methods.find? j = some i := hm ▸ hj
  have hne : m ≠ j := fun e => hno (h.formed.consistent_execute he (e ▸ hj₀))
  obtain ⟨i', values, hi', hv, rfl⟩ := exists_results_of_execute he
  have hfst : (i'.outputs.zip values).map Prod.fst = i'.outputs :=
    List.map_fst_zip (Nat.le_of_eq (length_results hv).symm)
  by_cases hread : ∃ c ∈ i.inputs, c ∈ i'.outputs
  · obtain ⟨c, hin, hout⟩ := hread
    refine .changed (mem_changed_writeAll.2 (.inr ⟨hfst.symm ▸ hout, ?_⟩))
      (mem_consumers.2 ⟨i, hj, hin⟩)
    exact h.formed.cells j i hj₀ c (List.mem_append_left _ hin)
  · -- The method knows none of the cells that were written, so it was inconsistent before.
    have hbefore : g.Awaits j := by
      refine h.tracked j i hj₀ fun hc => hno (hc.congr fun c hmem => value?_writeAll ?_)
      rw [hfst]
      intro hout
      rcases List.mem_append.1 hmem with hin | hout'
      · exact hread ⟨c, hin, hout⟩
      · exact hne (h.formed.once m j i' i c hi' hj₀ hout hout')
    exact hbefore.mono (fun k i hk => (writeAll_frame g _).1 ▸ hk)
      (fun c hc => mem_changed_writeAll.2 (.inl hc)) fun k hk => (writeAll_frame g _).2.1 ▸ hk

theorem Sane.perform {op : Operation V} (h : g.Sane) (hop : g.keepsTrack op = true) :
    (g.perform op).Sane := by
  match op, hop with
  | .addCell label multi value, _ => exact h.addCell label multi value
  | .removeCell c, _ => exact getD_toOption h fun g' hr => h.removeCell hr
  | .set c value, hop =>
    exact getD_toOption h fun g' hr => h.set (Option.isNone_iff_eq_none.1 hop) hr
  | .clear c, hop =>
    exact getD_toOption h fun g' hr =>
      clear_eq_ok hr ▸ h.write (Option.isNone_iff_eq_none.1 hop) none
  | .addMethod method inputs outputs, _ =>
    show (((g.addMethod method inputs outputs).toOption.map Prod.snd).getD g).Sane
    match hr : g.addMethod method inputs outputs with
    | .error e => exact h
    | .ok (m, g') => exact h.addMethod hr
  | .removeMethod m, _ => exact getD_toOption h fun g' hr => removeMethod_eq_ok hr ▸ h.dropMethod m
  | .execute m, _ => exact getD_toOption h fun g' hr => h.execute hr
  | .propagate, hop =>
    show g.propagate.2.Sane
    -- A propagation that fails is excluded; one that succeeds leaves everything consistent.
    rcases hp : g.propagate with ⟨_ | _, g'⟩
    · rw [keepsTrack, hp] at hop
      cases hop
    · obtain ⟨hformed, hcurrent, -⟩ := h.formed.consistent_propagate h.tracked hp
      exact ⟨hformed, hcurrent.tracked⟩

/-- Calls that keep track lead to dataflows in which what is inconsistent awaits a propagation. -/
theorem sane_run {ops : List (Operation V)} (hops : empty.keepsTrackAll ops = true) :
    (run ops).Sane := by
  have hfold : ∀ (ops : List (Operation V)) (g : Dataflow V), g.Sane →
      g.keepsTrackAll ops = true → (ops.foldl Dataflow.perform g).Sane := by
    intro ops
    induction ops with
    | nil => exact fun _ hg _ => hg
    | cons op rest ih =>
      intro g hg hops
      rw [keepsTrackAll, Bool.and_eq_true] at hops
      exact ih _ (hg.perform hops.1) hops.2
  exact hfold ops empty sane_empty hops

/-! ### Evaluation from scratch -/

/-- All methods, none of them before one whose outputs it reads. -/
structure DependencyOrder (g : Dataflow V) (order : List (MethodId V)) : Prop where
  perm : order.Perm g.methods.keys
  sorted : order.Pairwise fun j m => j ∉ g.followers m

/-- The dataflow without anything that was computed. -/
def cleared (g : Dataflow V) : Dataflow V :=
  g.writeAll ((g.methods.keys.flatMap g.outputs).map fun c => (c, none))

theorem Formed.exists_dependencyOrder (h : g.Formed) : ∃ order, g.DependencyOrder order := by
  obtain ⟨height, hheight⟩ := h.exists_height
  refine ⟨g.methods.keys.mergeSort fun j m => height j ≤ height m, List.mergeSort_perm .., ?_⟩
  have hsorted := @List.pairwise_mergeSort _ (fun j m => decide (height j ≤ height m))
    (fun a b c hab hbc => by
      rw [decide_eq_true_eq] at hab hbc ⊢
      omega)
    (fun a b => by
      rw [Bool.or_eq_true, decide_eq_true_eq, decide_eq_true_eq]
      omega) g.methods.keys
  refine hsorted.imp fun {j m} hle hf => ?_
  have hlt := hheight m j hf
  rw [decide_eq_true_eq] at hle
  omega

/-- Methods that run in an order that respects the dependencies find the values that `g` has, if
those that they do not compute are there, and compute the others. -/
theorem Current.executeAll (h : g.Formed) (hg : g.Current) {order : List (MethodId V)}
    (hknown : ∀ m ∈ order, m ∈ g.methods.keys)
    (hsorted : order.Pairwise fun j m => j ∉ g.followers m) (hm : x.methods = g.methods)
    (hk : x.cells.keys = g.cells.keys)
    (hv : ∀ c, (∀ m ∈ order, c ∉ g.outputs m) → x.value? c = g.value? c) :
    ∃ x', x.executeAll order = (.ok (), x') ∧ ∀ c, x'.value? c = g.value? c := by
  induction order generalizing x with
  | nil => exact ⟨x, rfl, fun c => hv c fun m hm => absurd hm List.not_mem_nil⟩
  | cons m rest ih =>
    obtain ⟨hfirst, hrest⟩ := List.pairwise_cons.1 hsorted
    obtain ⟨i, hi⟩ := Registry.mem_keys_iff.1 (hknown m List.mem_cons_self)
    have houtputs : g.outputs m = i.outputs := by rw [outputs, hi]
    obtain ⟨rank, hrank⟩ := h.ranked
    -- Neither the method itself nor a later one writes its inputs.
    have hinputs : ∀ c ∈ i.inputs, x.value? c = g.value? c := by
      intro c hc
      refine hv c fun j hj hout => ?_
      rcases List.mem_cons.1 hj with rfl | hj
      · rw [houtputs] at hout
        exact Nat.lt_irrefl _ (hrank j i hi c hc c hout)
      · obtain ⟨i', hi', hout⟩ := mem_outputs hout
        exact hfirst j hj (mem_followers.2 ⟨i', i, c, hi', hi, hout, hc⟩)
    have hresults : x.results i = .ok (i.outputs.map g.value?) :=
      (results_congr hinputs).trans (hg m i hi)
    let x₁ := x.writeAll (i.outputs.zip (i.outputs.map g.value?))
    have hexecute : x.execute m = .ok x₁ := execute_of_results (hm ▸ hi) hresults
    obtain ⟨hm₁, -, hk₁⟩ := writeAll_frame x (i.outputs.zip (i.outputs.map g.value?))
    have hfst : (i.outputs.zip (i.outputs.map g.value?)).map Prod.fst = i.outputs :=
      List.map_fst_zip (Nat.le_of_eq (List.length_map _).symm)
    have hwritten : i.outputs.map x₁.value? = i.outputs.map g.value? :=
      map_value?_writeAll (h.distinct m i hi)
        (fun c hc => hk ▸ h.cells m i hi c (List.mem_append_right _ hc)) (List.length_map _)
    obtain ⟨x', hx', hvalues⟩ := ih (x := x₁) (fun j hj => hknown j (List.mem_cons_of_mem _ hj))
      hrest (hm₁.trans hm) (hk₁.trans hk) fun c hc => by
        by_cases hout : c ∈ i.outputs
        · exact List.map_inj_left.1 hwritten c hout
        · show (x.writeAll _).value? c = _
          rw [value?_writeAll (hfst.symm ▸ hout)]
          refine hv c fun j hj => ?_
          rcases List.mem_cons.1 hj with rfl | hj
          · rwa [houtputs]
          · exact hc j hj
    refine ⟨x', ?_, hvalues⟩
    rw [Dataflow.executeAll, hexecute]
    exact hx'

/-- Methods write to their outputs only. -/
theorem value?_executeAll {l : List (MethodId V)} {r : Except DataflowError Unit}
    (hx : g.executeAll l = (r, g')) (hc : ∀ m ∈ l, c ∉ g.outputs m) :
    g'.value? c = g.value? c := by
  induction l generalizing g with
  | nil =>
    cases hx
    rfl
  | cons m rest ih =>
    rw [Dataflow.executeAll] at hx
    split at hx
    · cases hx
      rfl
    · -- The first method writes to its outputs, and `c` is none of them.
      rename_i g₁ he
      obtain ⟨i, values, hi, hv, rfl⟩ := exists_results_of_execute he
      have hout : c ∉ i.outputs := by
        have hout := hc m List.mem_cons_self
        rwa [outputs, hi] at hout
      rw [ih hx fun j hj => ?_, value?_writeAll]
      · rwa [List.map_fst_zip (Nat.le_of_eq (length_results hv).symm)]
      · rw [outputs_congr (writeAll_frame g _).1]
        exact hc j (List.mem_cons_of_mem _ hj)

theorem value?_propagate (hp : g.propagate = (.ok (), g'))
    (hc : ∀ m ∈ g.methods.keys, c ∉ g.outputs m) : g'.value? c = g.value? c := by
  obtain ⟨g₁, hx, rfl⟩ := propagate_eq_ok hp
  show g₁.value? c = g.settled.value? c
  refine value?_executeAll hx fun m _ hout => ?_
  obtain ⟨i, hi, -⟩ := mem_outputs hout
  exact hc m (Registry.mem_keys_of_find? hi) hout

/-- In every dataflow in which what is inconsistent awaits a propagation, this stays so as long as
computed cells are left to their methods and propagations succeed; and a propagation that succeeds
leaves every method consistent, with the values to which the evaluation of all methods from scratch
leads, in whatever order that respects the dependencies. -/
theorem incremental_run (ops : List (Operation V)) (ht : (run ops).Tracked) :
    (∀ op, (run ops).keepsTrack op = true → ((run ops).perform op).Tracked) ∧
      ∀ g', (run ops).propagate = (.ok (), g') → g'.Current ∧
        (∃ order, (run ops).DependencyOrder order) ∧
        ∀ order, (run ops).DependencyOrder order → ∃ fresh,
          (run ops).cleared.executeAll order = (.ok (), fresh) ∧
          ∀ c, fresh.value? c = g'.value? c := by
  have hformed := formed_run ops
  generalize run ops = g at ht hformed
  refine ⟨fun op hop => (Sane.perform ⟨hformed, ht⟩ hop).tracked, fun g' hp => ?_⟩
  obtain ⟨hformed', hcurrent, hm, hk⟩ := hformed.consistent_propagate ht hp
  refine ⟨hcurrent, hformed.exists_dependencyOrder, fun order horder => ?_⟩
  obtain ⟨hmc, -, hkc⟩ :=
    writeAll_frame g ((g.methods.keys.flatMap g.outputs).map fun c => (c, none))
  -- Running methods changes values only, so the graph of methods is the same throughout.
  have houtputs : ∀ m, g'.outputs m = g.outputs m := fun m => outputs_congr hm
  have hfollowers : ∀ m, g'.followers m = g.followers m := fun m => followers_congr hm
  -- It is enough that both sides agree on the cells that no method determines.
  refine hcurrent.executeAll hformed' (fun m hmem => hm ▸ horder.perm.subset hmem)
    (horder.sorted.imp fun {j m} hj => (hfollowers m).symm ▸ hj) (hmc.trans hm.symm)
    (hkc.trans hk.symm) fun c hc => ?_
  -- Such a cell is neither cleared nor written by the propagation.
  have hfree : ∀ m ∈ g.methods.keys, c ∉ g.outputs m := fun m hmem =>
    houtputs m ▸ hc m (horder.perm.symm.subset hmem)
  rw [cleared, value?_clear, if_neg, value?_propagate hp hfree]
  intro hmem
  obtain ⟨m, hmem, hout⟩ := List.mem_flatMap.1 hmem
  exact hfree m hmem hout

/-- Twice a cell, and the sum of both. -/
theorem incremental_run_sum :
    let ops : List (Operation Nat) :=
      [.addCell "a" false (some 1), .addCell "b" false none, .addCell "c" false none,
        .addMethod ⟨"double", fun args => .ok (args.map (2 * ·))⟩ [⟨1⟩] [⟨2⟩],
        .addMethod ⟨"sum", fun args => .ok [args.sum]⟩ [⟨1⟩, ⟨2⟩] [⟨3⟩],
        .propagate, .set ⟨1⟩ 5]
    (run ops).value? ⟨3⟩ = some 3 ∧ ∃ g' fresh, (run ops).propagate = (.ok (), g') ∧ g'.Current ∧
      (run ops).cleared.executeAll [⟨1⟩, ⟨2⟩] = (.ok (), fresh) ∧
      fresh.value? ⟨3⟩ = g'.value? ⟨3⟩ ∧ g'.value? ⟨3⟩ = some 15 := by
  intro ops
  have hops : empty.keepsTrackAll ops = true := by decide +kernel
  have hp := propagate_of_reply (show (run ops).propagate.1 = .ok () by decide +kernel)
  have horder : (run ops).DependencyOrder [⟨1⟩, ⟨2⟩] :=
    ⟨by decide +kernel, by decide +kernel⟩
  obtain ⟨hcurrent, -, hscratch⟩ := (incremental_run ops (sane_run hops).tracked).2 _ hp
  obtain ⟨fresh, hfresh, hvalues⟩ := hscratch [⟨1⟩, ⟨2⟩] horder
  exact ⟨by decide +kernel, _, fresh, hp, hcurrent, hfresh, hvalues ⟨3⟩, by decide +kernel⟩

/-! ### Propagations that fail -/

/-- A method reads what another one writes, or what is computed from that. -/
def Downstream (g : Dataflow V) (j m : MethodId V) : Prop :=
  Relation.TransGen (fun j m => m ∈ g.followers j) j m

theorem executeAll_eq_error {l : List (MethodId V)} {e : DataflowError}
    (hx : g.executeAll l = (.error e, g')) : ∃ ran m rest, l = ran ++ m :: rest ∧
      g.executeAll ran = (.ok (), g') ∧ g'.execute m = .error e := by
  induction l generalizing g with
  | nil => cases hx
  | cons m rest ih =>
    rw [Dataflow.executeAll] at hx
    split at hx
    · rename_i he
      cases hx
      exact ⟨[], m, rest, rfl, rfl, he⟩
    · rename_i g₁ he
      obtain ⟨ran, m', rest', rfl, hran, hm'⟩ := ih hx
      refine ⟨m :: ran, m', rest', rfl, ?_, hm'⟩
      rw [Dataflow.executeAll, he]
      exact hran

theorem propagate_eq_error {e : DataflowError} (hp : g.propagate = (.error e, g')) :
    ∃ ran m rest, g.schedule = ran ++ m :: rest ∧ g.settled.executeAll ran = (.ok (), g') ∧
      g'.execute m = .error e := by
  unfold Dataflow.propagate at hp
  split at hp
  · cases hp
  · rename_i hx
    cases hp
    exact executeAll_eq_error hx

/-- The outputs of the methods that have run are marked. -/
theorem Formed.mem_changed_executeAll {l : List (MethodId V)} (h : g.Formed)
    (hx : g.executeAll l = (.ok (), g')) :
    c ∈ g'.changed ↔ c ∈ g.changed ∨ ∃ m ∈ l, c ∈ g.outputs m := by
  induction l generalizing g with
  | nil =>
    cases hx
    simp
  | cons m rest ih =>
    obtain ⟨g₁, he, hx⟩ := executeAll_cons hx
    obtain ⟨h₁, hm, -⟩ := h.execute he
    rw [ih h₁ hx]
    simp only [outputs_congr hm]
    obtain ⟨i, values, hi, hv, rfl⟩ := exists_results_of_execute he
    have hi' : g.outputs m = i.outputs := by rw [outputs, hi]
    rw [mem_changed_writeAll, List.map_fst_zip (Nat.le_of_eq (length_results hv).symm), ← hi']
    simp only [List.mem_cons, exists_eq_or_imp, or_assoc]
    refine or_congr_right (or_congr_left (and_iff_left_of_imp fun hout => ?_))
    exact h.cells m i hi c (List.mem_append_right _ (hi' ▸ hout))

/-- If nothing is pending and the outputs of some methods are marked, then what is downstream of
these methods awaits a propagation. -/
theorem awaits_iff_downstream {ran : List (MethodId V)} (hp : ∀ m, m ∉ g.pending)
    (hc : ∀ c, c ∈ g.changed ↔ ∃ m ∈ ran, c ∈ g.outputs m) :
    g.Awaits m ↔ ∃ j ∈ ran, g.Downstream j m := by
  constructor
  · intro hm
    induction hm with
    | pending h => exact absurd h (hp _)
    | changed h hread =>
      obtain ⟨j, hj, hout⟩ := (hc _).1 h
      exact ⟨j, hj, .single (List.mem_flatMap.2 ⟨_, hout, hread⟩)⟩
    | follows _ hf ih =>
      obtain ⟨j, hj, hdown⟩ := ih
      exact ⟨j, hj, hdown.tail hf⟩
  · rintro ⟨j, hj, hdown⟩
    induction hdown with
    | single hf =>
      obtain ⟨c, hout, hread⟩ := List.mem_flatMap.1 hf
      exact .changed ((hc c).2 ⟨j, hj, hout⟩) hread
    | tail _ hf ih => exact ih.follows hf

/-- A propagation that fails has run a part of its schedule.  From then on exactly what is
downstream of that part awaits a propagation, so what is inconsistent is lost track of unless every
method from the failing one on is downstream of the part that ran or consistent anyway. -/
theorem failed_propagation_run (ops : List (Operation V)) (e : DataflowError) (g' : Dataflow V)
    (ht : (run ops).Tracked) (hp : (run ops).propagate = (.error e, g')) :
    ∃ ran failed rest, (run ops).schedule = ran ++ failed :: rest ∧
      g'.execute failed = .error e ∧
      (∀ m, g'.Awaits m ↔ ∃ j ∈ ran, g'.Downstream j m) ∧
      (g'.Tracked ↔ ∀ m ∈ failed :: rest, (∃ j ∈ ran, g'.Downstream j m) ∨
        ∃ i, g'.methods.find? m = some i ∧ g'.Consistent i) := by
  have hformed := formed_run ops
  generalize run ops = g at ht hformed hp
  obtain ⟨ran, failed, rest, hschedule, hran, hfailed⟩ := propagate_eq_error hp
  obtain ⟨-, hm, -⟩ := hformed.settled.executeAll hran
  have hm : g'.methods = g.methods := hm
  have hpending : ∀ m, m ∉ g'.pending := by
    intro m hm
    have hshrunk := shrunk_executeAll ran g.settled
    rw [hran] at hshrunk
    exact OrderedSet.not_mem_empty m (hshrunk.pending m hm)
  have hawaits : ∀ m, g'.Awaits m ↔ ∃ j ∈ ran, g'.Downstream j m := by
    intro m
    refine awaits_iff_downstream hpending fun c => ?_
    rw [hformed.settled.mem_changed_executeAll hran]
    simp only [outputs_congr hm]
    exact or_iff_right (OrderedSet.not_mem_empty c)
  refine ⟨ran, failed, rest, hschedule, hfailed, hawaits, fun htracked m hmem => ?_,
    fun hall m i hi hno => ?_⟩
  · have haff := hformed.mem_affected_of_mem_schedule (hschedule ▸ List.mem_append_right _ hmem)
    obtain ⟨i, hi⟩ := Registry.mem_keys_iff.1 (hm ▸ hformed.mem_keys_of_awaits
      (hformed.mem_affected_iff.1 haff))
    by_cases hc : g'.Consistent i
    · exact .inr ⟨i, hi, hc⟩
    · exact .inl ((hawaits m).1 (htracked m i hi hc))
  · by_cases hmem : m ∈ failed :: rest
    · rcases hall m hmem with hdown | ⟨i', hi', hc⟩
      · exact (hawaits m).2 hdown
      · exact absurd (Option.some_inj.1 (hi'.symm.trans hi) ▸ hc) hno
    · -- Such a method has run for the last time, or did not have to run.
      exact absurd (hformed.consistent_of_ran ht hschedule hran (hm ▸ hi) hmem) hno

/-- The second method of a chain fails.  It reads what the first one wrote, so it is tried again. -/
theorem failed_propagation_run_chain :
    let ops : List (Operation Nat) :=
      [.addCell "a" false (some 1), .addCell "b" false none, .addCell "c" false none,
        .addMethod ⟨"copy", fun args => .ok args⟩ [⟨1⟩] [⟨2⟩],
        .addMethod ⟨"fail", fun _ => .error (.missingPoint "fail" "x")⟩ [⟨2⟩] [⟨3⟩]]
    (run ops).Tracked ∧ (run ops).propagate.1 = .error (.method (.missingPoint "fail" "x")) ∧
      (run ops).propagate.2.Tracked ∧ (run ops).propagate.2.Awaits ⟨2⟩ := by
  intro ops
  have hops : empty.keepsTrackAll ops = true := by decide +kernel
  have ht : (run ops).Tracked := (sane_run hops).tracked
  have hreply : (run ops).propagate.1 = .error (.method (.missingPoint "fail" "x")) := by
    decide +kernel
  have hdown : (run ops).propagate.2.Downstream ⟨1⟩ ⟨2⟩ := .single (by decide +kernel)
  have hsecond : (run ops).propagate.2.execute ⟨1⟩ |>.toBool := by decide +kernel
  have hlist : (run ops).schedule = [⟨1⟩, ⟨2⟩] := by decide +kernel
  obtain ⟨ran, failed, rest, hschedule, hfailed, hawaits, htracked⟩ :=
    failed_propagation_run ops _ _ ht (propagate_of_reply hreply)
  rw [hlist] at hschedule
  match ran with
  | [] =>
    -- The first method does not fail.
    obtain ⟨rfl, -⟩ := List.cons.inj hschedule
    rw [hfailed] at hsecond
    cases hsecond
  | [j] =>
    obtain ⟨rfl, hrest⟩ := List.cons.inj hschedule
    obtain ⟨rfl, rfl⟩ := List.cons.inj hrest
    refine ⟨ht, hreply, htracked.2 fun m hm => .inl ⟨⟨1⟩, List.mem_cons_self, ?_⟩,
      (hawaits ⟨2⟩).2 ⟨⟨1⟩, List.mem_cons_self, hdown⟩⟩
    rwa [List.mem_singleton.1 hm]
  | _ :: _ :: ran => exact absurd (congrArg List.length hschedule) (by simp)

/-- A failing method and one that has nothing to do with it.  The propagation fails before the
second method runs and forgets that it has to: once the failing method is gone, a propagation
succeeds and leaves the second one inconsistent. -/
theorem not_tracked_propagate :
    let ops : List (Operation Nat) :=
      [.addCell "a" false (some 1), .addCell "b" false none,
        .addMethod ⟨"fail", fun _ => .error (.missingPoint "fail" "x")⟩ [⟨1⟩] [⟨2⟩],
        .addCell "c" false (some 2), .addCell "d" false none,
        .addMethod ⟨"copy", fun args => .ok args⟩ [⟨3⟩] [⟨4⟩]]
    let later : List (Operation Nat) := ops ++ [.propagate, .removeMethod ⟨1⟩]
    (run ops).Tracked ∧ (run ops).propagate.1 = .error (.method (.missingPoint "fail" "x")) ∧
      ¬(run ops).propagate.2.Tracked ∧ (run later).propagate.1 = .ok () ∧
      ¬(run later).propagate.2.Current := by
  intro ops later
  have hops : empty.keepsTrackAll ops = true := by decide +kernel
  have hformed : (run ops).propagate.2.Formed := (formed_run ops).propagate.1
  -- The copying method is inconsistent as long as its output is unset.
  have hleft : ∀ g : Dataflow Nat, g.value? ⟨3⟩ = some 2 → g.value? ⟨4⟩ = none →
      ¬g.Consistent ⟨⟨"copy", fun args => .ok args⟩, [⟨3⟩], [⟨4⟩]⟩ := by
    intro g hin hout hc
    simp [Consistent, results, arguments?, hin, hout] at hc
  refine ⟨(sane_run hops).tracked, by decide +kernel, fun ht => ?_, by decide +kernel, fun hc => ?_⟩
  · -- The mark on its input has gone with the failed propagation.
    have hnot : ⟨2⟩ ∉ (run ops).propagate.2.affected := by decide +kernel
    refine hnot (hformed.mem_affected_iff.2 (ht ⟨2⟩ _ rfl (hleft _ ?_ ?_))) <;> decide +kernel
  · refine hleft (run later).propagate.2 ?_ ?_ (hc ⟨2⟩ _ rfl) <;> decide +kernel

end PlanarSketch.Dataflow
