/-
Selectors are up to date.

A selector is made when its merge is wired, and made again when a constraint
is added or removed.  In between, merges come and go.  It is always the one
that would be made now: what it is made of is the output and the inputs of its
merge, which never change while the merge is in use, and the constraints, and
whenever those change all merges in use are visited, since each has a seat.

* `Reflects`: the selector of a merge is the one that would be made now;
* `Tended`: selectors are older than what comes, and every merge has a seat;
* `Tended.replay`, `Tended.rebuildSelector`: one edit and one visit;
* `Attuned`, `Attuned.perform`: every selector is up to date, call by call;
* `MergeGeometry.questions`, `byRules_asks`: what the rules ask a prototype;
* `selectors_run`: the selectors after every run.
-/
import PlanarSketch.Proofs.Evaluation
import PlanarSketch.Proofs.Redundancy

namespace PlanarSketch

namespace Dataflow

variable {V : Type} {g g' : Dataflow V} {method : Method V} {inputs outputs : List (CellId V)}
  {m j : MethodId V}

/-- A new method is younger than all that are there, and these stay. -/
theorem find?_addMethod_of_le (h : g.addMethod method inputs outputs = .ok (m, g'))
    (hj : j.serial ≤ g.methods.issued) : g'.methods.find? j = g.methods.find? j := by
  obtain ⟨-, -, rfl⟩ := addMethod_eq_ok h
  show (g.methods.insert _).find? j = _
  rw [Registry.find?_insert, if_neg]
  rintro rfl
  exact Nat.not_succ_le_self _ hj

theorem issued_addMethod (h : g.addMethod method inputs outputs = .ok (m, g')) :
    m.serial = g.methods.issued + 1 ∧ g'.methods.issued = g.methods.issued + 1 := by
  obtain ⟨rfl, -, rfl⟩ := addMethod_eq_ok h
  exact ⟨rfl, rfl⟩

end Dataflow

/-! ### What a selector is made of -/

/-- The questions that tell the solutions of a construction apart.  Three sides leave open which way
the triangle runs; an angle beside two sides leaves open how large the angle at the far point is. -/
def MergeGeometry.questions : MergeGeometry → List SelectionConstraint
  | .triangle (.sides p q r _ _ _) _ _ =>
    [⟨.notClockwise, p, q, r⟩, ⟨.notCounterClockwise, p, q, r⟩]
  | .triangle (.angleAndSides a b c _ _ _) _ _ => [⟨.notAcute, a, c, b⟩, ⟨.notObtuse, a, c, b⟩]
  | _ => []

/-- A merge asks the prototype what its construction leaves open. -/
def Application.Asks (a : Application) : Prop :=
  a.draft.prototypeConstraints = a.draft.geometry.questions

/-- Every rule attaches the questions of its construction. -/
theorem Decomposition.byRules_asks : Decomposition.ByRules Application.Asks where
  derivation := fun _ _ _ _ => rfl
  finding := fun {d ps plan} _ hf => by
    show plan.prototypeConstraints = plan.geometry.questions
    cases hf with
    | absorb _ _ h => obtain ⟨-, -, -, -, rfl⟩ := absorb?_eq_some h; rfl
    | balloonRigid _ _ h => obtain ⟨-, -, -, rfl⟩ := balloonRigid?_eq_some h; rfl
    | @pointRigid me other _ _ _ _ _ _ h =>
      -- Whichever of the two is the lone point, the construction asks nothing.
      have hjoin : ∀ r p : Placed, [] = (d.joinPoint r p).geometry.questions := fun r p => by
        unfold joinPoint
        dsimp only
        split <;> rfl
      obtain ⟨-, ⟨-, rfl⟩ | ⟨-, -, rfl⟩⟩ := pointRigid?_eq_some h
      · exact hjoin other me
      · exact hjoin me other
    | rigidRigid _ _ _ _ h => obtain ⟨-, -, rfl⟩ := rigidRigid?_eq_some h; rfl
    | balloons _ _ _ _ h => obtain ⟨-, -, rfl⟩ := balloons?_eq_some h; rfl
    | hedgehogs _ _ _ h => obtain ⟨-, -, -, -, -, rfl⟩ := hedgehogs?_eq_some h; rfl
    | threeRigids _ _ _ _ _ _ h =>
      obtain ⟨-, -, -, p, q, r, -, -, -, -, -, -, rfl⟩ := threeRigids?_eq_some h
      rfl
    | angleBetween => rfl
    | angleBeside => rfl
    | extend _ _ _ _ h => obtain ⟨-, -, -, -, rfl⟩ := extendHedgehog?_eq_some h; rfl
    | triangle _ _ _ _ _ h => obtain ⟨-, rfl⟩ := triangleOver?_eq_some h; rfl

namespace Solver

open Decomposition

variable {s s' s₁ : Solver} {d : Decomposition} {k j : MergeId} {m : Merge}
  {g : Dataflow Candidates} {op : Operation}

/-- The selector that would be made for a merge now. -/
def selectorMethod (s : Solver) (m : Merge) : Method Candidates :=
  selectMethod ("select:" ++ s.clusterText m.output) (s.selectorFor m)

/-- The selector that a merge has. -/
def selector? (s : Solver) (k : MergeId) : Option (Method Candidates) :=
  (s.wirings.find? k).bind fun w => (s.flow.methods.find? w.selectMethod).map Installed.method

theorem selector?_eq_some {method : Method Candidates} : s.selector? k = some method ↔
    ∃ w i, s.wirings.find? k = some w ∧ s.flow.methods.find? w.selectMethod = some i ∧
      i.method = method := by
  simp only [selector?, Option.bind_eq_some_iff, Option.map_eq_some_iff, exists_and_left]

/-- The selector of a merge, if it has one, is the one that would be made now. -/
def Reflects (s : Solver) (k : MergeId) : Prop :=
  ∀ m method, s.decomposition.merges.find? k = some m → s.selector? k = some method →
    method = s.selectorMethod m

/-- Everything that selectors are made of is the same. -/
structure Agrees (s s' : Solver) : Prop where
  decomposition : s'.decomposition = s.decomposition
  selection : s'.selection = s.selection
  config : s'.config = s.config

theorem Agrees.refl (s : Solver) : s.Agrees s := ⟨rfl, rfl, rfl⟩

theorem Agrees.trans {s'' : Solver} (h : s.Agrees s') (h' : s'.Agrees s'') : s.Agrees s'' :=
  ⟨h'.decomposition.trans h.decomposition, h'.selection.trans h.selection, h'.config.trans h.config⟩

/-- A selector is made of the constraints and of the clusters of its merge. -/
theorem selectorMethod_congr (hs : s'.selection = s.selection) (hc : s'.config = s.config)
    (hcl : ∀ id ∈ m.inputs ++ [m.output],
      s'.decomposition.cluster? id = s.decomposition.cluster? id) :
    s'.selectorMethod m = s.selectorMethod m := by
  have hout := hcl m.output (List.mem_append_right _ (List.mem_singleton_self _))
  have hdecides : ∀ q, ∀ id ∈ m.inputs ++ [m.output], s'.decides q id = s.decides q id :=
    fun q id hid => by rw [decides, hcl id hid, decides]
  have huser : s'.userConstraintsFor m = s.userConstraintsFor m := by
    unfold userConstraintsFor
    rw [hs]
    refine List.filter_congr fun q _ => ?_
    have hany : m.inputs.any (s'.decides q) = m.inputs.any (s.decides q) := by
      rw [Bool.eq_iff_iff, List.any_eq_true, List.any_eq_true]
      refine exists_congr fun id => and_congr_right fun hid => ?_
      rw [hdecides q id (List.mem_append_left _ hid)]
    rw [hany, hdecides q m.output (List.mem_append_right _ (List.mem_singleton_self _))]
  unfold selectorMethod selectorFor clusterText
  rw [hout, huser, hc]

theorem Agrees.selectorMethod_eq (h : s.Agrees s') (m : Merge) :
    s'.selectorMethod m = s.selectorMethod m :=
  selectorMethod_congr h.selection h.config fun _ _ => by rw [h.decomposition]

/-- A merge whose selector is the same one, if it is still there, reflects the same constraints. -/
theorem Reflects.of_agrees (h : s.Reflects k) (ha : s.Agrees s')
    (hsel : ∀ method, s'.selector? k = some method → s.selector? k = some method) :
    s'.Reflects k := by
  intro m method hm hmethod
  rw [ha.decomposition] at hm
  rw [ha.selectorMethod_eq]
  exact h m method hm (hsel method hmethod)

/-! ### One edit and one visit -/

/-- Every selector is older than the methods to come, and every merge that is wired has a seat. -/
structure Tended (s : Solver) : Prop where
  issued : ∀ k w, s.wirings.find? k = some w → w.selectMethod.serial ≤ s.flow.methods.issued
  seated : ∀ k w, s.wirings.find? k = some w → k ∈ s.roster.members
  roster : s.roster.Tidy

/-- The second solver is tended, its selectors are made of the same, and those that were up to date
still are. -/
structure Upholds (s s' : Solver) : Prop where
  agrees : s.Agrees s'
  tended : s'.Tended
  reflects : ∀ k, s.Reflects k → s'.Reflects k

theorem Tended.upholds (h : s.Tended) : s.Upholds s := ⟨.refl s, h, fun _ hk => hk⟩

theorem Upholds.trans {s'' : Solver} (h : s.Upholds s') (h' : s'.Upholds s'') : s.Upholds s'' :=
  ⟨h.agrees.trans h'.agrees, h'.tended, fun k hk => h'.reflects k (h.reflects k hk)⟩

theorem Tended.wireCluster {id : ClusterId} (h : s.Tended)
    (hr : (wireCluster id).run.run s = (.ok (), s')) : s.Upholds s' := by
  obtain ⟨label, rfl⟩ := wireCluster_eq_ok hr
  exact ⟨⟨rfl, rfl, rfl⟩, ⟨h.issued, h.seated, h.roster⟩,
    fun k hk => hk.of_agrees ⟨rfl, rfl, rfl⟩ fun _ hm => hm⟩

/-- A merge gets a method of its own as its selector. -/
theorem Tended.install {w : MergeWiring} {i : Installed Candidates} {roster : Roster MergeId}
    (h : s.Tended) (hk : s.decomposition.merges.find? k = some m)
    (hnew : g.methods.find? w.selectMethod = some i) (hmethod : i.method = s.selectorMethod m)
    (hissued : s.flow.methods.issued ≤ g.methods.issued)
    (hold : ∀ q i, q.serial ≤ s.flow.methods.issued → g.methods.find? q = some i →
      s.flow.methods.find? q = some i)
    (htidy : roster.Tidy) (hseats : ∀ j, j ∈ s.roster.members ∨ j = k → j ∈ roster.members) :
    let s' := { s with flow := g, wirings := s.wirings.insert k w, roster := roster }
    s.Upholds s' ∧ s'.Reflects k := by
  intro s'
  -- Only the wiring of the merge itself is another one.
  have hwirings : ∀ j w', s'.wirings.find? j = some w' →
      j = k ∧ w' = w ∨ j ≠ k ∧ s.wirings.find? j = some w' := by
    intro j w' hj
    rw [OrderedMap.find?_insert] at hj
    split at hj
    · exact .inl ⟨Eq.symm ‹_›, (Option.some_inj.1 hj).symm⟩
    · exact .inr ⟨Ne.symm ‹_›, hj⟩
  -- So every other merge keeps its selector, whose method is older than the new one.
  have hselector : ∀ j method, s'.selector? j = some method →
      j = k ∧ method = s.selectorMethod m ∨ j ≠ k ∧ s.selector? j = some method := by
    intro j method hj
    obtain ⟨w', i', hw', hi', rfl⟩ := selector?_eq_some.1 hj
    rcases hwirings j w' hw' with ⟨rfl, rfl⟩ | ⟨hne, hw'⟩
    · obtain rfl := Option.some_inj.1 (hnew.symm.trans hi')
      exact .inl ⟨rfl, hmethod⟩
    · have hi' := hold _ i' (h.issued j w' hw') hi'
      exact .inr ⟨hne, selector?_eq_some.2 ⟨w', i', hw', hi', rfl⟩⟩
  have hself : s'.Reflects k := by
    intro m' method hm' hj
    obtain rfl := Option.some_inj.1 (hk.symm.trans hm')
    rcases hselector k method hj with ⟨-, he⟩ | ⟨hne, -⟩
    · exact he
    · exact absurd rfl hne
  refine ⟨⟨⟨rfl, rfl, rfl⟩, ⟨fun j w' hj => ?_, fun j w' hj => ?_, htidy⟩, fun j hj => ?_⟩, hself⟩
  · rcases hwirings j w' hj with ⟨-, rfl⟩ | ⟨-, hj⟩
    · exact (g.methods.bounded _ (Registry.mem_keys_of_find? hnew)).2
    · exact Nat.le_trans (h.issued j w' hj) hissued
  · rcases hwirings j w' hj with ⟨rfl, -⟩ | ⟨-, hj⟩
    · exact hseats _ (.inr rfl)
    · exact hseats j (.inl (h.seated j w' hj))
  · by_cases he : j = k
    · exact he ▸ hself
    · exact hj.of_agrees ⟨rfl, rfl, rfl⟩ fun method hmethod =>
        ((hselector j method hmethod).resolve_left fun hno => he hno.1).2

/-- A merge in use is wired with the selector that it should have. -/
theorem Tended.wireMerge (h : s.Tended) (hk : s.decomposition.merges.find? k = some m)
    (hr : (wireMerge k m).run.run s = (.ok (), s')) : s.Upholds s' := by
  obtain ⟨label, inputs, merge, g₁, out, select, g₂, -, h₁, -, h₂, rfl⟩ := wireMerge_eq_ok hr
  obtain ⟨-, hissued₁⟩ := Dataflow.issued_addMethod h₁
  obtain ⟨-, hissued₂⟩ := Dataflow.issued_addMethod h₂
  replace hissued₁ : g₁.methods.issued = s.flow.methods.issued + 1 := hissued₁
  obtain ⟨htidy, hseats⟩ := h.roster.seat k
  refine (h.install hk ((Dataflow.find?_addMethod h₂).2 (.inr ⟨rfl, rfl⟩)) rfl (by omega)
    (fun q i hq hi => ?_) htidy hseats).1
  rwa [Dataflow.find?_addMethod_of_le h₂ (by omega), Dataflow.find?_addMethod_of_le h₁ hq] at hi

/-- The other merges keep their selectors and their seats. -/
theorem Tended.unwireMerge (h : s.Tended) (hr : (unwireMerge k).run.run s = (.ok (), s')) :
    s.Upholds s' := by
  rcases unwireMerge_eq_ok hr with ⟨rfl, -⟩ | ⟨w, g₁, g₂, g₃, -, h₁, h₂, h₃, rfl⟩
  · exact h.upholds
  have hshrunk := ((shrunk_unwireMethod h₁).trans (shrunk_unwireMethod h₂)).trans
    (shrunk_unwireCell h₃)
  obtain ⟨htidy, hseats⟩ := h.roster.vacate k
  refine ⟨⟨rfl, rfl, rfl⟩, ⟨fun j w' hj => ?_, fun j w' hj => ?_, htidy⟩, fun j hj =>
    hj.of_agrees ⟨rfl, rfl, rfl⟩ fun method hmethod => ?_⟩
  · rw [hshrunk.methodsIssued]
    exact h.issued j w' (OrderedMap.find?_of_erase hj)
  · obtain ⟨hj, hne⟩ := OrderedMap.find?_erase_eq_some.1 hj
    exact hseats j (h.seated j w' hj) hne
  · obtain ⟨w', i, hw', hi, rfl⟩ := selector?_eq_some.1 hmethod
    exact selector?_eq_some.2
      ⟨w', i, OrderedMap.find?_of_erase hw', hshrunk.methods _ i hi, rfl⟩

theorem Tended.unwireCluster {id : ClusterId} (h : s.Tended)
    (hr : (unwireCluster id).run.run s = (.ok (), s')) : s.Upholds s' := by
  rcases unwireCluster_eq_ok hr with ⟨rfl, -⟩ | ⟨c, g, -, hg, rfl⟩
  · exact h.upholds
  have hshrunk := shrunk_unwireCell hg
  refine ⟨⟨rfl, rfl, rfl⟩, ⟨fun j w hj => ?_, h.seated, h.roster⟩, fun j hj =>
    hj.of_agrees ⟨rfl, rfl, rfl⟩ fun method hmethod => ?_⟩
  · rw [hshrunk.methodsIssued]
    exact h.issued j w hj
  · obtain ⟨w, i, hw, hi, rfl⟩ := selector?_eq_some.1 hmethod
    exact selector?_eq_some.2 ⟨w, i, hw, hshrunk.methods _ i hi, rfl⟩

theorem Tended.replay {e : Edit} (h : s.Tended) (hr : (replay e).run.run s = (.ok (), s')) :
    s.Upholds s' := by
  match e with
  | .clusterAdded id => exact h.wireCluster hr
  | .mergeAdded k =>
    simp only [Solver.replay] at hr
    rw [Change.run_get_bind] at hr
    split at hr
    · rename_i m hm
      exact h.wireMerge hm hr
    · obtain ⟨-, rfl⟩ := pure_eq_ok.1 hr
      exact h.upholds
  | .mergeRemoved k => exact h.unwireMerge hr
  | .clusterRemoved id => exact h.unwireCluster hr

/-- A merge that is visited has the selector that it should have. -/
theorem Tended.rebuildSelector (h : s.Tended)
    (hr : (rebuildSelector k).run.run s = (.ok (), s')) : s.Upholds s' ∧ s'.Reflects k := by
  rcases rebuildSelector_eq_ok hr with ⟨rfl, hnone⟩ | ⟨m, w, out, select, g, hm, hw, -, hg, rfl⟩
  · refine ⟨h.upholds, fun m method hm hmethod => ?_⟩
    -- A merge that is missing or not wired has no selector.
    obtain ⟨w, -, hw, -, -⟩ := selector?_eq_some.1 hmethod
    rcases hnone with hnone | hnone
    · cases hnone.symm.trans hm
    · cases hnone.symm.trans hw
  -- The old method is dropped and the new one gets a later key.
  have hshrunk := s.flow.shrunk_dropMethod w.selectMethod
  obtain ⟨-, hissued⟩ := Dataflow.issued_addMethod hg
  rw [hshrunk.methodsIssued] at hissued
  refine h.install hm ((Dataflow.find?_addMethod hg).2 (.inr ⟨rfl, rfl⟩)) rfl (by omega)
    (fun q i hq hi => ?_) h.roster fun j hj => ?_
  · rw [← hshrunk.methodsIssued] at hq
    rw [Dataflow.find?_addMethod_of_le hg hq] at hi
    exact hshrunk.methods q i hi
  · rcases hj with hj | rfl
    · exact hj
    · exact h.seated _ w hw

/-- What every call of a list achieves for its member, and the other calls keep, holds for all
members in the end. -/
theorem forM_achieves {α : Type} {I : Solver → Prop} {C : α → Solver → Prop} {f : α → SolverM Unit}
    {l : List α} (hf : ∀ a s s', I s → (f a).run.run s = (.ok (), s') →
      I s' ∧ C a s' ∧ ∀ b, C b s → C b s') (hi : I s) (h : (l.forM f).run.run s = (.ok (), s')) :
    I s' ∧ ∀ b, b ∈ l ∨ C b s → C b s' := by
  induction l generalizing s with
  | nil =>
    obtain ⟨-, rfl⟩ := pure_eq_ok.1 h
    exact ⟨hi, fun b hb => hb.resolve_left List.not_mem_nil⟩
  | cons a rest ih =>
    obtain ⟨_, s₁, h₁, h⟩ := bind_eq_ok.1 h
    obtain ⟨hi₁, ha, hkeep⟩ := hf a s s₁ hi h₁
    obtain ⟨hi', hrest⟩ := ih hi₁ h
    refine ⟨hi', fun b hb => hrest b ?_⟩
    rcases hb with hb | hb
    · exact (List.mem_cons.1 hb).elim (fun he => .inr (he ▸ ha)) .inl
    · exact .inr (hkeep b hb)

/-! ### One call -/

/-- Every selector is up to date. -/
structure Attuned (s : Solver) : Prop where
  tended : s.Tended
  reflects : ∀ k, s.Reflects k

theorem attuned_withConfig (config : SolverConfig) : (withConfig config).Attuned where
  tended := ⟨nofun, nofun, Roster.tidy_empty⟩
  reflects := fun _ _ _ hk => by cases hk

/-- Values are of no concern to selectors. -/
theorem Attuned.withFlow (h : s.Attuned) (hm : g.methods = s.flow.methods) :
    { s with flow := g }.Attuned := by
  refine ⟨⟨fun k w hw => ?_, h.tended.seated, h.tended.roster⟩, fun k =>
    (h.reflects k).of_agrees ⟨rfl, rfl, rfl⟩ fun method hmethod => ?_⟩
  · show w.selectMethod.serial ≤ g.methods.issued
    rw [hm]
    exact h.tended.issued k w hw
  · rw [← hmethod]
    show _ = (s.wirings.find? k).bind fun w => (g.methods.find? w.selectMethod).map Installed.method
    rw [hm]
    rfl

/-- Clusters and merges that stay in use are the same, so nothing changes for their selectors. -/
theorem Attuned.withDecomposition (h : s.Attuned) (hm : Mirrors s.decomposition s)
    (hg : s.decomposition.Grounded) (hd : d.Grounded) (hc : s.decomposition.Continues d) :
    { s with decomposition := d }.Attuned := by
  refine ⟨⟨h.tended.issued, h.tended.seated, h.tended.roster⟩, fun k m method hk hmethod => ?_⟩
  obtain ⟨w, i, hw, hi, rfl⟩ := selector?_eq_some.1 hmethod
  obtain ⟨m', hm'⟩ := (hm.merges k).2 ⟨w, hw⟩
  obtain rfl := hc.merge k m' m hm' hk
  have hlive : ∀ {x : Decomposition}, x.Grounded → x.merges.find? k = some m' →
      ∀ id ∈ m'.inputs ++ [m'.output], x.Live id := by
    intro x hx hxk id hid
    rcases List.mem_append.1 hid with hid | hid
    · exact (hx.merge k m' hxk).inputs id hid
    · exact List.mem_singleton.1 hid ▸ (hx.merge k m' hxk).output
  rw [h.reflects k m' i.method hm' hmethod]
  refine selectorMethod_congr (s := { s with decomposition := d }) rfl rfl fun id hid => ?_
  obtain ⟨c, hcl⟩ := live_iff.1 (hlive hd hk id hid)
  exact (hc.cluster id c (hlive hg hm' id hid) hcl).trans hcl.symm

theorem Prepares.attuned (hp : Prepares s op s₁) (h : s.Attuned) (hm : Mirrors s.decomposition s)
    (hreach : s.decomposition.Reachable) :
    s₁.Attuned ∧ s₁.selection = op.adjust s.selection ∧ s₁.config = s.config := by
  match hp with
  | .restructured (d := d) hd hs =>
    obtain ⟨x, hx⟩ := Option.ne_none_iff_exists'.1 (Operation.searched?_ne_none hreach.sound hd)
    obtain ⟨hsound, -, hchange⟩ := Operation.searched?_sound hreach.sound hx
    obtain rfl : x.process = d := Except.ok.inj (Option.some_inj.1 (hchange.symm.trans hd))
    have hcontinues := hreach.continues_of_change hd
    have hstart : { s with decomposition := x.process.withoutJournal }.Attuned :=
      h.withDecomposition hm hreach.sound.grounded
        (hsound.process.grounded.congr (fun _ => rfl) rfl rfl rfl)
        ⟨hcontinues.cluster, hcontinues.merge⟩
    have hup := forM_eq_ok
      (I := fun s₁ => { s with decomposition := x.process.withoutJournal }.Upholds s₁)
      (fun _ _ _ _ hI hr => hI.trans (hI.tended.replay hr)) hstart.tended.upholds hs
    refine ⟨⟨hup.tended, fun k => hup.reflects k (hstart.reflects k)⟩, ?_, hup.agrees.config⟩
    have hkeep : op.adjust s.selection = s.selection := by
      cases op <;> first | rfl | cases hd
    exact hup.agrees.selection.trans hkeep.symm
  | @Prepares.assigned _ _ c v _ =>
    exact ⟨h.withFlow (Dataflow.write_frame s.flow c (some v)).1, rfl, rfl⟩
  | .drawn (p := p) _ hkeep =>
    have hflow := h.withFlow (Dataflow.write_frame s.flow s.prototypeCell (some [.ofPoints p])).1
    exact ⟨⟨⟨hflow.tended.issued, hflow.tended.seated, hflow.tended.roster⟩, hflow.reflects⟩,
      hkeep.symm, rfl⟩
  | .selected _ hs =>
    have hstart : { s with selection := op.adjust s.selection }.Tended :=
      ⟨h.tended.issued, h.tended.seated, h.tended.roster⟩
    obtain ⟨hup, hvisited⟩ := forM_achieves
      (I := fun s₁ => { s with selection := op.adjust s.selection }.Upholds s₁)
      (C := fun k s => s.Reflects k) (fun k s₁ s₂ hI hr => by
        obtain ⟨hup, hk⟩ := hI.tended.rebuildSelector hr
        exact ⟨hI.trans hup, hk, hup.reflects⟩) hstart.upholds hs
    refine ⟨⟨hup.tended, fun k m method hk => ?_⟩, hup.agrees.selection, hup.agrees.config⟩
    -- A merge in use is wired, so it has a seat and was visited.
    have hold : s.decomposition.merges.find? k = some m := hup.agrees.decomposition ▸ hk
    obtain ⟨w, hw⟩ := (hm.merges k).1 ⟨m, hold⟩
    exact hvisited k (.inl (h.tended.seated k w hw)) m method hk

/-- Every call leaves selectors that are up to date, and the constraints that it asks for. -/
theorem Attuned.perform (h : s.Attuned) (hm : Mirrors s.decomposition s)
    (hreach : s.decomposition.Reachable) (op : Operation) : (s.perform op).Attuned ∧
      (s.perform op).selection = op.adjust s.selection ∧ (s.perform op).config = s.config := by
  have hends := hm.ends hreach op
  generalize s.reply op = r, s.perform op = s' at hends
  match hends with
  | .refused hrefused =>
    refine ⟨h, ?_, rfl⟩
    rcases hrefused with hrefused | ⟨id, candidates, rfl, -⟩
    · cases op <;> first | rfl | cases hrefused
    · rfl
  | .idle _ hkeep => exact ⟨h, hkeep.symm, rfl⟩
  | .evaluated hp =>
    obtain ⟨h₁, hselection, hconfig⟩ := hp.attuned h hm hreach
    exact ⟨h₁.withFlow (hp.mirrors hm hreach).formed.propagate.2.1, hselection, hconfig⟩

/-! ### All runs -/

/-- The selectors of every run are up to date; the constraints are those that the calls ask for. -/
theorem attuned_run (config : SolverConfig) (ops : List Operation) : (run config ops).Attuned ∧
    (run config ops).selection = ops.foldl Operation.adjust .empty ∧
    (run config ops).config = config := by
  have hstart := attuned_withConfig config
  have hmirrors := (faithful_withConfig config).mirrors
  have hreach : (withConfig config).decomposition.Reachable := .empty
  have hconfig : (withConfig config).config = config := rfl
  show _ ∧ _ = ops.foldl Operation.adjust (withConfig config).selection ∧ _
  unfold run
  generalize withConfig config = s at hstart hmirrors hreach hconfig ⊢
  induction ops generalizing s with
  | nil => exact ⟨hstart, rfl, hconfig⟩
  | cons op rest ih =>
    obtain ⟨h, hselection, hkeep⟩ := hstart.perform hmirrors hreach op
    rw [List.foldl_cons, List.foldl_cons, ← hselection]
    exact ih (s.perform op) h (hmirrors.perform hreach op) (reachable_perform hreach op)
      (hkeep.trans hconfig)

/-- The merges in use, and no others, have the selectors that they should have. -/
theorem Attuned.selector?_eq (h : s.Attuned) (hm : Mirrors s.decomposition s) (k : MergeId) :
    s.selector? k = (s.decomposition.merges.find? k).map s.selectorMethod := by
  cases hk : s.decomposition.merges.find? k with
  | none =>
    refine Option.eq_none_iff_forall_ne_some.2 fun method hmethod => ?_
    obtain ⟨w, -, hw, -, -⟩ := selector?_eq_some.1 hmethod
    obtain ⟨m, hm⟩ := (hm.merges k).2 ⟨w, hw⟩
    cases hk.symm.trans hm
  | some m =>
    obtain ⟨w, hw⟩ := (hm.merges k).1 ⟨m, hk⟩
    obtain ⟨out, name, selector, -, hselect⟩ := (hm.computes k m w hk hw).select
    have hselector := selector?_eq_some.2 ⟨w, _, hw, hselect, rfl⟩
    rw [hselector, h.reflects k m _ hk hselector]
    rfl

/-- What a list of calls does to the decomposition depends on the structural ones alone. -/
theorem decomposition_foldl (hm : Mirrors s.decomposition s) (hreach : s.decomposition.Reachable)
    (ops : List Operation) : (ops.foldl perform s).decomposition =
      (ops.filter Operation.isStructural).foldl (fun d op =>
        (op.searched? d).elim d fun x => x.process.withoutJournal) s.decomposition := by
  induction ops generalizing s with
  | nil => rfl
  | cons op rest ih =>
    have hstep := hm.decomposition_perform hreach op
    rw [List.foldl_cons, ih (hm.perform hreach op) (reachable_perform hreach op), hstep,
      List.filter_cons]
    split
    · rfl
    · rename_i hop
      rw [Operation.searched?_eq_none (Bool.not_eq_true _ ▸ hop)]
      rfl

theorem decides_iff {q : SelectionConstraint} {id : ClusterId} : s.decides q id = true ↔
    ∃ c, s.decomposition.cluster? id = some c ∧ ∀ v ∈ q.names, v ∈ c := by
  simp only [decides, Option.any_eq_true, Cluster.containsAll, List.all_eq_true, decide_eq_true_eq]

/-- A merge decides the constraints whose points its output has but none of its inputs. -/
theorem mem_userConstraintsFor {q : SelectionConstraint} : q ∈ s.userConstraintsFor m ↔
    q ∈ s.selection ∧ (∃ c, s.decomposition.cluster? m.output = some c ∧ ∀ v ∈ q.names, v ∈ c) ∧
      ∀ id ∈ m.inputs, ¬∃ c, s.decomposition.cluster? id = some c ∧ ∀ v ∈ q.names, v ∈ c := by
  rw [userConstraintsFor, List.mem_filter, OrderedSet.mem_toList, Bool.and_eq_true, decides_iff,
    Bool.not_eq_true', List.any_eq_false]
  simp only [decides_iff]

/-- After every run the selector of each merge in use has, in the order of the selection, the
constraints whose points its output has but none of its inputs; the questions for the prototype that
its rule attached when the merge was applied, which are those that its construction leaves open; and
the configuration of the solver.  Selectors depend on the structural calls and on the constraints
that are there in the end, and not on which of them came first. -/
theorem selectors_run (config : SolverConfig) (ops : List Operation) :
    let s := run config ops
    let d := s.decomposition
    s.selection = ops.foldl Operation.adjust .empty ∧
    (∀ k m, d.merges.find? k = some m → ∃ σ : Selector,
      s.selector? k = some (selectMethod ("select:" ++ s.clusterText m.output) σ) ∧
      σ.userConstraints.Sublist s.selection.toList ∧
      (∀ q, q ∈ σ.userConstraints ↔ q ∈ s.selection ∧
        (∃ c, d.cluster? m.output = some c ∧ ∀ v ∈ q.names, v ∈ c) ∧
        ∀ id ∈ m.inputs, ¬∃ c, d.cluster? id = some c ∧ ∀ v ∈ q.names, v ∈ c) ∧
      (∃ a ∈ (withConfig config).applications ops, a.merge = m ∧
        σ.prototypeConstraints = a.draft.prototypeConstraints) ∧
      σ.prototypeConstraints = m.geometry.questions ∧
      σ.config = config) ∧
    ∀ ops', ops'.filter Operation.isStructural = ops.filter Operation.isStructural →
      ops'.foldl Operation.adjust .empty = ops.foldl Operation.adjust .empty →
      ∀ k, (run config ops').selector? k = s.selector? k := by
  intro s d
  have hmirrors : Mirrors d s := mirrors_run config ops
  obtain ⟨hattuned, hselection, hconfig⟩ : s.Attuned ∧ _ := attuned_run config ops
  refine ⟨hselection, fun k m hk => ?_, fun ops' hops hadjust k => ?_⟩
  · -- The selector is the one for its merge, and the merge comes from an application of a rule.
    have hselector := hattuned.selector?_eq hmirrors k
    rw [show s.decomposition.merges.find? k = some m from hk] at hselector
    obtain ⟨a, ha, rfl⟩ :=
      (exists_application (faithful_withConfig config).mirrors .empty hk).resolve_left
        List.not_mem_nil
    exact ⟨s.selectorFor a.merge, hselector, List.filter_sublist,
      fun q => mem_userConstraintsFor, ⟨a, ha, rfl, rfl⟩,
      of_mem_applications byRules_asks .empty ha, hconfig⟩
  · have hstart := (faithful_withConfig config).mirrors
    obtain ⟨hattuned', hselection', hconfig'⟩ := attuned_run config ops'
    -- The structural calls alone decide on the decomposition, and selectors are computed from it.
    have hd : (run config ops').decomposition = s.decomposition := by
      show (ops'.foldl perform (withConfig config)).decomposition =
        (ops.foldl perform (withConfig config)).decomposition
      rw [decomposition_foldl hstart .empty, decomposition_foldl hstart .empty, hops]
    have hagrees : s.Agrees (run config ops') :=
      ⟨hd, (hselection'.trans hadjust).trans hselection.symm, hconfig'.trans hconfig.symm⟩
    rw [hattuned.selector?_eq hmirrors, hattuned'.selector?_eq (mirrors_run config ops'), hd]
    exact congrArg (Option.map · _) (funext hagrees.selectorMethod_eq)

/-- Three sides make a triangle.  A constraint on its sense is decided there, whether it is added
before the sides or after them. -/
theorem selectors_run_triangle :
    let q : SelectionConstraint := ⟨.notClockwise, "a", "b", "c"⟩
    let sides : List Operation := [.add (.rigid (.ofList ["a", "b"])),
      .add (.rigid (.ofList ["b", "c"])), .add (.rigid (.ofList ["c", "a"]))]
    let early : List Operation := .addSelection q :: sides
    let late : List Operation := sides ++ [.addSelection q]
    (run {} early).selector? ⟨1⟩ = (run {} late).selector? ⟨1⟩ ∧
      ∃ name σ, (run {} late).selector? ⟨1⟩ = some (selectMethod name σ) ∧
        q ∈ σ.userConstraints := by
  intro q sides early late
  obtain ⟨-, hselector, hsame⟩ := selectors_run {} late
  have hdecided : ((run {} late).decomposition.merges.find? ⟨1⟩).any
      (fun m => q ∈ (run {} late).userConstraintsFor m) = true := by decide +kernel
  obtain ⟨m, hm, hq⟩ := (Option.any_eq_true _ _).1 hdecided
  obtain ⟨σ, hσ, -, hiff, -⟩ := hselector ⟨1⟩ m hm
  refine ⟨hsame early rfl rfl ⟨1⟩, _, σ, hσ, (hiff q).2 ?_⟩
  exact mem_userConstraintsFor.1 (of_decide_eq_true hq)

end Solver

end PlanarSketch
