/-
No check fails.

The checks of a search ask for keys in use and for clusters that say
something.  In a sound decomposition the top level is in use and what a search
finds is a sound plan; a sound plan has a valid output, and reads top-level
clusters and valid hedgehogs derived from them.  So each step with its checks
is the step without them.

* `lookUp_eq_ok`, `requireValid_eq_ok`: when a check passes;
* `Grounded.checked_provideAll`, `Sound.checked_carryOut`: a sound plan passes
  every check;
* `Sound.checked_processStep`: so one step of the search does.
-/
import PlanarSketch.Decomposition.Checked
import PlanarSketch.Proofs.CarryOut
import PlanarSketch.Proofs.Searches

namespace PlanarSketch.Decomposition

variable {d : Decomposition}

/-! ### Checks -/

theorem lookUp_eq_ok {ids : List ClusterId} (h : ∀ id ∈ ids, d.Live id) : d.lookUp ids = .ok () :=
  if_pos (List.all_eq_true.2 fun id hid => Registry.contains_iff.2 (h id hid))

theorem requireValid_eq_ok {c : Cluster} : requireValid c = .ok () ↔ c.Valid := by
  unfold requireValid Cluster.Valid
  cases c.validate with
  | error e => exact iff_of_false (fun h => by cases h) fun h => by cases h
  | ok u => exact iff_of_true rfl rfl

/-- What a plan may use is in use, and a hedgehog that it may derive is valid. -/
theorem Offers.checked_provide {i : PlanInput} {c : Cluster} (h : d.Offers i c) :
    Checked.provide d i = .ok (d.provide i) := by
  cases h with
  | existing hp =>
    have hlive := lookUp_eq_ok (List.forall_mem_singleton.2 (live_of_cluster? hp.2))
    rw [Checked.provide, hlive]
    rfl
  | derived hs hv _ =>
    have hlive := lookUp_eq_ok (List.forall_mem_singleton.2 (live_of_cluster? hs.2))
    rw [Checked.provide, hlive, requireValid_eq_ok.2 hv]
    rfl

theorem Grounded.checked_provideAll (hg : d.Grounded) {inputs : List PlanInput}
    (hin : ∀ i ∈ inputs, ∃ c, d.Offers i c) :
    Checked.provideAll d inputs = .ok (d.provideAll inputs) := by
  induction inputs generalizing d with
  | nil => rfl
  | cons i rest ih =>
    obtain ⟨c, hc⟩ := hin i List.mem_cons_self
    obtain ⟨new, hone⟩ := provided_provide hg hc
    -- The inputs that come later are still there once the first one has been provided.
    have hrest : ∀ j ∈ rest, ∃ c, (d.provide i).2.Offers j c := by
      intro j hj
      obtain ⟨c', hc'⟩ := hin j (List.mem_cons_of_mem _ hj)
      exact ⟨c', hc'.mono hone.onTop_mono⟩
    rw [Checked.provideAll, hc.checked_provide]
    show (Checked.provideAll (d.provide i).2 rest >>= fun r => _) = _
    rw [ih hone.grounded hrest]
    rfl

/-! ### Steps of the search -/

/-- A sound plan passes every check. -/
theorem Sound.checked_carryOut (h : d.Sound) {plan : Plan} (hp : plan.Sound d) :
    Checked.carryOut d plan = .ok (d.carryOut plan) := by
  have hin : ∀ i ∈ plan.inputs, ∃ c, d.Offers i c := fun _ => hp.offers
  obtain ⟨new, hpr⟩ := provided_provideAll h.grounded hin
  have hlive := lookUp_eq_ok fun id hid => hpr.grounded.top id (hpr.mem_topLevel_of_mem hid)
  rw [Checked.carryOut, requireValid_eq_ok.2 hp.valid, h.grounded.checked_provideAll hin]
  show Checked.addMerge (d.provideAll plan.inputs).2 (plan.draft (d.provideAll plan.inputs).1) = _
  rw [Checked.addMerge]
  show ((d.provideAll plan.inputs).2.lookUp (d.provideAll plan.inputs).1 >>= fun _ => _) = _
  rw [hlive]
  rfl

/-- A search looks at the top level and finds a sound plan, so it passes every check. -/
theorem Sound.checked_processStep (h : d.Sound) (id : ClusterId) :
    Checked.processStep d id = .ok (d.processStep id) := by
  have htop := lookUp_eq_ok fun i hi => h.grounded.top i (OrderedSet.mem_toList.1 hi)
  unfold Checked.processStep processStep
  split
  · rename_i hid
    rw [htop]
    cases hs : d.search id with
    | none => rfl
    | some plan =>
      obtain ⟨ps, hf⟩ := finding_of_search (isTopLevel_iff.1 hid) hs
      show (Checked.carryOut d plan >>= fun r => _) = _
      rw [h.checked_carryOut (hf.sound h.grounded)]
      rfl
  · rfl

end PlanarSketch.Decomposition
