/-
What carrying out a plan does.

A plan first derives the hedgehogs that it needs and then merges all its
inputs.  Clusters that were in use stay as they are, the merges grow at their
end, and the only clusters that leave the top level are the inputs that the
plan names as they are; what was derived comes and goes in between.

* `Grown`: clusters and merges are added and nothing else changes;
* `Grown.dependsOn_eq`: what a cluster was computed from does not change
  afterwards;
* `Provided`: the inputs of a plan have been derived;
* `Carried`: a plan has been carried out;
* `Grounded.carryOut_induction`: what every single merge keeps is kept by a plan.
-/
import PlanarSketch.Proofs.Plans

namespace PlanarSketch.Decomposition

variable {d d' d'' : Decomposition} {id : ClusterId}

/-! ### Growing -/

/-- The new merges come last, their outputs are new clusters, and neither a cluster in use nor the
points nor the worklist change. -/
structure Grown (d d' : Decomposition) (new : List Merge) : Prop where
  clusters : ∀ id c, d.cluster? id = some c → d'.cluster? id = some c
  merges : d'.merges.values = d.merges.values ++ new
  fresh : ∀ m ∈ new, ¬d.Live m.output
  points : d'.points = d.points
  worklist : d'.worklist = d.worklist

variable {new new' : List Merge}

theorem Grown.refl (d : Decomposition) : d.Grown d [] :=
  ⟨fun _ _ h => h, (List.append_nil _).symm, fun _ h => (by cases h), rfl, rfl⟩

theorem Grown.live (h : d.Grown d' new) (hid : d.Live id) : d'.Live id := by
  obtain ⟨c, hc⟩ := live_iff.1 hid
  exact live_of_cluster? (h.clusters id c hc)

theorem Grown.trans (h : d.Grown d' new) (h' : d'.Grown d'' new') : d.Grown d'' (new ++ new') := by
  refine ⟨fun id c hc => h'.clusters id c (h.clusters id c hc), ?_, fun m hm hl => ?_,
    h'.points.trans h.points, h'.worklist.trans h.worklist⟩
  · rw [h'.merges, h.merges, List.append_assoc]
  · rcases List.mem_append.1 hm with hm | hm
    · exact h.fresh m hm hl
    · exact h'.fresh m hm (h.live hl)

/-- A cluster in use before is the same cluster afterwards. -/
theorem Grown.cluster?_eq (h : d.Grown d' new) {c : Cluster} (hid : d.Live id) :
    d'.cluster? id = some c ↔ d.cluster? id = some c := by
  obtain ⟨c', hc'⟩ := live_iff.1 hid
  rw [h.clusters id c' hc', hc']

/-- A merge whose output lies between known points lets the decomposition grow by it. -/
theorem grown_addMerge {draft : MergeDraft} (hp : ∀ v ∈ draft.output, v ∈ d.points) :
    d.Grown (d.addMerge draft).2 [d.mergeFor draft] := by
  refine ⟨fun id c hc => cluster?_addMerge.2 (.inl hc), Registry.values_insert _ _, ?_, ?_, rfl⟩
  · intro m hm
    rw [List.mem_singleton.1 hm]
    exact not_live_nextKey
  · show d.points.insertMany draft.output.points.toList = d.points
    exact OrderedSet.insertMany_of_subset hp

/-! ### What a cluster was computed from -/

theorem descendants_cons (reached : List ClusterId) (m : Merge) (rest : List Merge) :
    descendants reached (m :: rest) =
      if m.inputs.any (· ∈ reached) then descendants (reached ++ [m.output]) rest
      else descendants reached rest :=
  rfl

theorem descendants_append (reached : List ClusterId) (ms ns : List Merge) :
    descendants reached (ms ++ ns) = descendants (descendants reached ms) ns := by
  induction ms generalizing reached with
  | nil => rfl
  | cons m rest ih =>
    rw [List.cons_append, descendants_cons, descendants_cons]
    split
    · exact ih _
    · exact ih _

/-- Merges with other outputs do not reach a cluster. -/
theorem mem_descendants_of_ne {reached : List ClusterId} {ms : List Merge}
    (h : ∀ m ∈ ms, m.output ≠ id) : id ∈ descendants reached ms ↔ id ∈ reached := by
  induction ms generalizing reached with
  | nil => exact Iff.rfl
  | cons m rest ih =>
    have hm : id ≠ m.output := (h m List.mem_cons_self).symm
    have hrest : ∀ m ∈ rest, m.output ≠ id := fun m' hm' => h m' (List.mem_cons_of_mem _ hm')
    rw [descendants_cons]
    split
    · rw [ih hrest, List.mem_append, List.mem_singleton, or_iff_left hm]
    · exact ih hrest

/-- Later merges do not change what a cluster was computed from. -/
theorem Grown.dependsOn_eq (h : d.Grown d' new) (hid : d.Live id) (source : ClusterId) :
    d'.dependsOn id source = d.dependsOn id source := by
  -- The new merges come last, and none of them has the cluster as its output.
  have hne : ∀ m ∈ new, m.output ≠ id := fun m hm he => h.fresh m hm (he ▸ hid)
  rw [Bool.eq_iff_iff]
  show (descendants [source] d'.merges.values).contains id = true ↔
    (descendants [source] d.merges.values).contains id = true
  rw [List.contains_iff_mem, List.contains_iff_mem, h.merges, descendants_append,
    mem_descendants_of_ne hne]

/-! ### Providing the inputs -/

theorem Offers.unique {i : PlanInput} {c c' : Cluster} (h : d.Offers i c) (h' : d.Offers i c') :
    c = c' := by
  cases h with
  | @existing p hp =>
    generalize hi : PlanInput.existing p.id = i at h'
    cases h' with
    | @existing q hq =>
      obtain rfl := hp.eq_of_id hq (PlanInput.existing.inj hi)
      rfl
    | derived hs _ _ => cases hi
  | @derived s centre arms hs _ _ =>
    generalize hi : PlanInput.derived s.id centre arms = i at h'
    cases h' with
    | existing hq => cases hi
    | derived _ _ _ =>
      obtain ⟨-, rfl, rfl⟩ := PlanInput.derived.inj hi
      rfl

theorem Offers.mono {i : PlanInput} {c : Cluster} (h : d.Offers i c)
    (htop : ∀ p, d.OnTop p → d'.OnTop p) : d'.Offers i c := by
  cases h with
  | existing hp => exact .existing (htop _ hp)
  | derived hs hv hw => exact .derived (htop _ hs) hv hw

/-- What an input offers is valid. -/
theorem Grounded.valid_of_offers (hg : d.Grounded) {i : PlanInput} {c : Cluster}
    (h : d.Offers i c) : c.Valid := by
  cases h with
  | existing hp => exact hg.valid _ _ hp.2
  | derived _ hv _ => exact hv

/-- What an input offers lies between known points. -/
theorem Grounded.mem_points_of_offers (hg : d.Grounded) {i : PlanInput} {c : Cluster}
    (h : d.Offers i c) {v : PointName} (hv : v ∈ c) : v ∈ d.points := by
  cases h with
  | existing hp => exact (hg.points v).2 ⟨_, _, hp.2, hv⟩
  | derived hs hvalid hw => exact (hg.points v).2 ⟨_, _, hs.2, hw.mem hvalid hv⟩

theorem Settled.expose {exposed exposed' : List ClusterId} (h : d.Settled [] exposed)
    (hsub : ∀ id ∈ exposed, id ∈ exposed') : d.Settled [] exposed' := by
  refine ⟨h.consumedOnce, h.free, h.frontier, fun k m hk hr he => ?_⟩
  exact h.hidden k m hk hr fun hx => he (hsub _ hx)

/-- The inputs are all there, on the top level and under the given keys: those that existed under
their old keys, the others as derived hedgehogs under new ones. -/
structure Provided (d : Decomposition) (inputs : List PlanInput) (ids : List ClusterId)
    (d' : Decomposition) (new : List Merge) : Prop where
  grounded : d'.Grounded
  grown : d.Grown d' new
  derivations : ∀ m ∈ new, m.rule.isDerivation = true ∧ m.output ∈ ids
  topLevel : d'.topLevel.toList = d.topLevel.toList ++ new.map Merge.output
  onTop : ∀ id ∈ ids, ∃ i ∈ inputs, ∃ c, d.Offers i c ∧ d'.OnTop ⟨id, c⟩
  given : ∀ i ∈ inputs, ∀ c, d.Offers i c → ∃ id ∈ ids, d'.cluster? id = some c
  kept : ∀ id, d.Live id → (id ∈ ids ↔ .existing id ∈ inputs)
  settled : ∀ exposed, d.Settled [] exposed → d'.Settled [] (exposed ++ ids)

theorem provided_nil (hg : d.Grounded) : Provided d [] [] d [] where
  grounded := hg
  grown := .refl d
  derivations := fun _ h => by cases h
  topLevel := (List.append_nil _).symm
  onTop := fun _ h => by cases h
  given := fun _ h => by cases h
  kept := fun id _ => by simp
  settled := fun exposed h => by rwa [List.append_nil]

section Provided

variable {inputs rest : List PlanInput} {i : PlanInput} {ids : List ClusterId} {c : Cluster}

theorem Provided.mem_topLevel (h : Provided d inputs ids d' new) (hid : id ∈ d.topLevel) :
    id ∈ d'.topLevel := by
  rw [← OrderedSet.mem_toList, h.topLevel]
  exact List.mem_append_left _ hid

theorem Provided.onTop_mono (h : Provided d inputs ids d' new) (p : Placed) (hp : d.OnTop p) :
    d'.OnTop p :=
  ⟨h.mem_topLevel hp.1, h.grown.clusters _ _ hp.2⟩

/-- A cluster that exists is there already. -/
theorem provided_existing (hg : d.Grounded) {p : Placed} (hp : d.OnTop p) :
    Provided d [.existing p.id] [p.id] d [] where
  grounded := hg
  grown := .refl d
  derivations := fun _ h => by cases h
  topLevel := (List.append_nil _).symm
  onTop := fun id hid => by
    obtain rfl := List.mem_singleton.1 hid
    exact ⟨_, List.mem_singleton_self _, p.cluster, .existing hp, hp⟩
  given := fun i hi c hc => by
    obtain rfl := List.mem_singleton.1 hi
    refine ⟨p.id, List.mem_singleton_self _, ?_⟩
    rw [hc.unique (.existing hp)]
    exact hp.2
  kept := fun id _ => by simp
  settled := fun exposed h => h.expose fun id hid => List.mem_append_left _ hid

/-- Deriving a hedgehog puts it on the top level, where it is exposed. -/
theorem provided_derived (hg : d.Grounded) {source : ClusterId} {centre : PointName}
    {arms : NameSet} (h : d.Offers (.derived source centre arms) c) :
    ∃ new, Provided d [.derived source centre arms] [(d.derive source centre arms).1]
      (d.derive source centre arms).2 new := by
  have hlive : d.Live source := by
    cases h with
    | derived hs _ _ => exact live_of_cluster? hs.2
  have hc : c = .hedgehog centre arms := by
    cases h with
    | derived _ _ _ => rfl
  have hv := hg.valid_of_offers h
  have hpts := fun v (hv : v ∈ c) => hg.mem_points_of_offers h hv
  subst hc
  -- The new key is free, so the hedgehog comes last on the top level.
  have hnew : d.clusters.nextKey ∉ d.topLevel := fun hid => not_live_nextKey (hg.top _ hid)
  have hout : (d.derive source centre arms).2.OnTop ⟨d.clusters.nextKey, .hedgehog centre arms⟩ :=
    ⟨mem_topLevel_addMerge.2 ⟨.inl rfl, by simp⟩, cluster?_addMerge.2 (.inr ⟨rfl, rfl⟩)⟩
  refine ⟨_, ?grounded, grown_addMerge hpts, ?derivations, ?topLevel, ?onTop, ?given, ?kept,
    ?settled⟩
  case grounded =>
    refine hg.addMerge hv (fun id hid => ?_) rfl
    rw [List.mem_singleton.1 hid]
    exact hlive
  case derivations =>
    intro m hm
    rw [List.mem_singleton.1 hm]
    exact ⟨rfl, List.mem_singleton_self _⟩
  case topLevel => exact OrderedSet.toList_insert_of_not_mem hnew
  case onTop =>
    intro id hid
    obtain rfl := List.mem_singleton.1 hid
    exact ⟨_, List.mem_singleton_self _, _, h, hout⟩
  case given =>
    intro i hi c hc
    obtain rfl := List.mem_singleton.1 hi
    obtain rfl := hc.unique h
    exact ⟨_, List.mem_singleton_self _, hout.2⟩
  case kept =>
    intro id hid
    -- What was in use before is not the hedgehog, and deriving consumes nothing.
    have hne : id ∉ [(d.derive source centre arms).1] := by
      intro hmem
      rw [List.mem_singleton.1 hmem] at hid
      exact not_live_nextKey hid
    exact iff_of_false hne (by simp)
  case settled =>
    intro exposed hs
    refine hs.addMerge hg (fun id hid => by cases hid) (fun _ => ?_) fun id hid _ => ?_
    · exact List.mem_append_right _ (List.mem_singleton_self _)
    · exact List.mem_append_left _ hid

/-- One input is provided, then the others. -/
theorem Provided.cons (h : Provided d [i] [id] d' new) (h' : Provided d' rest ids d'' new')
    (hrest : ∀ j ∈ rest, ∃ c, d.Offers j c) :
    Provided d (i :: rest) (id :: ids) d'' (new ++ new') := by
  refine ⟨h'.grounded, h.grown.trans h'.grown, ?derivations, ?topLevel, ?onTop, ?given, ?kept,
    ?settled⟩
  case derivations =>
    intro m hm
    rcases List.mem_append.1 hm with hm | hm
    · obtain ⟨hr, ho⟩ := h.derivations m hm
      exact ⟨hr, List.mem_cons.2 (.inl (List.mem_singleton.1 ho))⟩
    · obtain ⟨hr, ho⟩ := h'.derivations m hm
      exact ⟨hr, List.mem_cons_of_mem _ ho⟩
  case topLevel => rw [h'.topLevel, h.topLevel, List.map_append, List.append_assoc]
  case onTop =>
    intro k hk
    rcases List.mem_cons.1 hk with rfl | hk
    · obtain ⟨j, hj, c, hc, ht⟩ := h.onTop k (List.mem_singleton_self _)
      rw [List.mem_singleton.1 hj] at hc
      exact ⟨i, List.mem_cons_self, c, hc, h'.onTop_mono _ ht⟩
    · -- What the input offers later it offers already now.
      obtain ⟨j, hj, c, hc, ht⟩ := h'.onTop k hk
      obtain ⟨c', hc'⟩ := hrest j hj
      obtain rfl := hc.unique (hc'.mono h.onTop_mono)
      exact ⟨j, List.mem_cons_of_mem _ hj, c, hc', ht⟩
  case given =>
    intro j hj c hc
    rcases List.mem_cons.1 hj with rfl | hj
    · obtain ⟨k, hk, hcl⟩ := h.given j (List.mem_singleton_self _) c hc
      exact ⟨k, List.mem_cons.2 (.inl (List.mem_singleton.1 hk)), h'.grown.clusters _ _ hcl⟩
    · obtain ⟨k, hk, hcl⟩ := h'.given j hj c (hc.mono h.onTop_mono)
      exact ⟨k, List.mem_cons_of_mem _ hk, hcl⟩
  case kept =>
    intro k hk
    have h₁ := h.kept k hk
    have h₂ := h'.kept k (h.grown.live hk)
    rw [List.mem_singleton, List.mem_singleton] at h₁
    rw [List.mem_cons, List.mem_cons, h₁, h₂]
  case settled =>
    intro exposed hs
    have hs' := h'.settled _ (h.settled exposed hs)
    rwa [List.append_assoc, List.singleton_append] at hs'

theorem provideAll_cons (d : Decomposition) (i : PlanInput) (rest : List PlanInput) :
    d.provideAll (i :: rest) = ((d.provide i).1 :: ((d.provide i).2.provideAll rest).1,
      ((d.provide i).2.provideAll rest).2) :=
  rfl

/-- One input of a plan can be provided. -/
theorem provided_provide (hg : d.Grounded) (h : d.Offers i c) :
    ∃ new, Provided d [i] [(d.provide i).1] (d.provide i).2 new := by
  cases h with
  | existing hp => exact ⟨[], provided_existing hg hp⟩
  | derived hs hv hw => exact provided_derived hg (.derived hs hv hw)

/-- The inputs of a plan can be provided one after the other. -/
theorem provided_provideAll (hg : d.Grounded) (hin : ∀ i ∈ inputs, ∃ c, d.Offers i c) :
    ∃ new, Provided d inputs (d.provideAll inputs).1 (d.provideAll inputs).2 new := by
  induction inputs generalizing d with
  | nil => exact ⟨[], provided_nil hg⟩
  | cons i rest ih =>
    obtain ⟨c, hc⟩ := hin i List.mem_cons_self
    have hrest : ∀ j ∈ rest, ∃ c, d.Offers j c := fun j hj => hin j (List.mem_cons_of_mem _ hj)
    obtain ⟨new, hone⟩ := provided_provide hg hc
    obtain ⟨new', hall⟩ := ih hone.grounded fun j hj => by
      obtain ⟨c', hc'⟩ := hrest j hj
      exact ⟨c', hc'.mono hone.onTop_mono⟩
    rw [provideAll_cons]
    exact ⟨new ++ new', hone.cons hall hrest⟩

end Provided

/-! ### The whole plan -/

end PlanarSketch.Decomposition

namespace PlanarSketch

/-- What a top-level cluster knows that a plan consumes, the output knows. -/
theorem Plan.Sound.weaker_of_onTop {plan : Plan} {d : Decomposition} (h : plan.Sound d) {p : Placed}
    (hp : d.OnTop p) (hin : .existing p.id ∈ plan.inputs) : p.cluster.Weaker plan.output := by
  obtain ⟨c, hc, hw⟩ := h.weaker _ hin
  rwa [hc.unique (.existing hp)] at hw

/-- Every input of a plan can be provided. -/
theorem Plan.Sound.offers {plan : Plan} {d : Decomposition} (h : plan.Sound d) {i : PlanInput}
    (hi : i ∈ plan.inputs) : ∃ c, d.Offers i c := by
  obtain ⟨c, hc, -⟩ := h.weaker i hi
  exact ⟨c, hc⟩

/-- The output of the merge determines what the inputs determine, and has no points but theirs. -/
structure Merge.Lossless (m : Merge) (d : Decomposition) : Prop where
  weaker : ∀ o id c, d.cluster? m.output = some o → id ∈ m.inputs → d.cluster? id = some c →
    c.Weaker o
  members : ∀ o v, d.cluster? m.output = some o → v ∈ o →
    ∃ id ∈ m.inputs, ∃ c, d.cluster? id = some c ∧ v ∈ c

theorem Merge.Lossless.congr {m : Merge} {d d' : Decomposition} (h : m.Lossless d)
    (hout : d'.cluster? m.output = d.cluster? m.output)
    (hin : ∀ id ∈ m.inputs, d'.cluster? id = d.cluster? id) : m.Lossless d' := by
  refine ⟨fun o id c ho hid hc => ?_, fun o v ho hv => ?_⟩
  · rw [hout] at ho
    rw [hin id hid] at hc
    exact h.weaker o id c ho hid hc
  · rw [hout] at ho
    obtain ⟨id, hid, c, hc, hvc⟩ := h.members o v ho hv
    exact ⟨id, hid, c, (hin id hid).trans hc, hvc⟩

namespace Decomposition

variable {d d' : Decomposition} {id out : ClusterId} {plan : Plan}

/-- The plan has been carried out: the inputs that it names as they are have left the top level,
the output has come to its end, and no new merge lost anything. -/
structure Carried (d : Decomposition) (plan : Plan) (out : ClusterId) (d' : Decomposition) :
    Prop where
  sound : d'.Sound
  grown : ∃ new, d.Grown d' new ∧ ∀ m ∈ new, m.rule.isDerivation = false → m.Lossless d'
  fresh : ¬d.Live out
  output : d'.cluster? out = some plan.output
  topLevel : d'.topLevel.toList =
    (d.topLevel.toList.filter fun id => .existing id ∉ plan.inputs) ++ [out]

theorem Carried.mem_topLevel (h : d.Carried plan out d') :
    id ∈ d'.topLevel ↔ id ∈ d.topLevel ∧ .existing id ∉ plan.inputs ∨ id = out := by
  rw [← OrderedSet.mem_toList, h.topLevel, List.mem_append, List.mem_filter, List.mem_singleton,
    decide_eq_true_iff]
  rfl

section Merging

variable {ids : List ClusterId} {new : List Merge}

theorem carryOut_eq (d : Decomposition) (plan : Plan) : d.carryOut plan =
    (d.provideAll plan.inputs).2.addMerge (plan.draft (d.provideAll plan.inputs).1) :=
  rfl

theorem Provided.mem_topLevel_of_mem (h : Provided d plan.inputs ids d' new) (hid : id ∈ ids) :
    id ∈ d'.topLevel := by
  obtain ⟨-, -, c, -, ht⟩ := h.onTop id hid
  exact ht.1

/-- The points of the output are known. -/
theorem Grounded.mem_points_of_output (hg : d.Grounded) (hp : plan.Sound d) {v : PointName}
    (hv : v ∈ plan.output) : v ∈ d.points := by
  obtain ⟨i, -, c, hc, hvc⟩ := hp.members v hv
  exact hg.mem_points_of_offers hc hvc

theorem Provided.grown_draft (h : Provided d plan.inputs ids d' new) (hg : d.Grounded)
    (hp : plan.Sound d) :
    d'.Grown (d'.addMerge (plan.draft ids)).2 [d'.mergeFor (plan.draft ids)] := by
  refine grown_addMerge fun v hv => ?_
  rw [h.grown.points]
  exact hg.mem_points_of_output hp hv

/-- Merging what was provided leaves nothing exposed. -/
theorem Provided.sound_draft (h : Provided d plan.inputs ids d' new) (hd : d.Sound)
    (hp : plan.Sound d) : (d'.addMerge (plan.draft ids)).2.Sound := by
  have htop : ∀ id ∈ ids, id ∈ d'.topLevel := fun id hid => h.mem_topLevel_of_mem hid
  constructor
  · refine h.grounded.addMerge hp.valid (fun id hid => h.grounded.top id (htop id hid)) ?_
    show ids = if plan.rule.isDerivation then [] else ids
    rw [hp.rule]
    rfl
  · -- All that was exposed is among the inputs, so it leaves the top level now.
    refine (h.settled [] hd.settled).addMerge h.grounded htop (fun hr => ?_) fun id hid hn => ?_
    · rw [show (plan.draft ids).rule = plan.rule from rfl, hp.rule] at hr
      cases hr
    · exact absurd hid hn

theorem Provided.lossless_draft (h : Provided d plan.inputs ids d' new) (hg : d.Grounded)
    (hp : plan.Sound d) :
    (d'.mergeFor (plan.draft ids)).Lossless (d'.addMerge (plan.draft ids)).2 := by
  have hgrown := h.grown_draft hg hp
  have hout : (d'.addMerge (plan.draft ids)).2.cluster? d'.clusters.nextKey = some plan.output :=
    cluster?_addMerge.2 (.inr ⟨rfl, rfl⟩)
  refine ⟨fun o id c ho hid hc => ?_, fun o v ho hv => ?_⟩
  · obtain rfl := Option.some_inj.1 (hout.symm.trans ho)
    obtain ⟨i, hi, c', hc', ht⟩ := h.onTop id hid
    obtain rfl := Option.some_inj.1 ((hgrown.clusters id c' ht.2).symm.trans hc)
    obtain ⟨c'', hc'', hw⟩ := hp.weaker i hi
    rw [hc'.unique hc'']
    exact hw
  · obtain rfl := Option.some_inj.1 (hout.symm.trans ho)
    obtain ⟨i, hi, c, hc, hvc⟩ := hp.members v hv
    obtain ⟨id, hid, hcl⟩ := h.given i hi c hc
    exact ⟨id, hid, c, hgrown.clusters id c hcl, hvc⟩

/-- The derived hedgehogs have come and gone; of the clusters that were there before, those that
the plan names have left. -/
theorem Provided.topLevel_draft (h : Provided d plan.inputs ids d' new) (hg : d.Grounded) :
    (d'.addMerge (plan.draft ids)).2.topLevel.toList =
      (d.topLevel.toList.filter fun id => .existing id ∉ plan.inputs) ++ [d'.clusters.nextKey] := by
  have hnew : d'.clusters.nextKey ∉ d'.topLevel :=
    fun hid => not_live_nextKey (h.grounded.top _ hid)
  -- The list before the erasure has three parts, of which the middle one goes as a whole.
  have hold : d.topLevel.toList.filter (fun id => decide (id ∉ ids)) =
      d.topLevel.toList.filter fun id => decide (.existing id ∉ plan.inputs) := by
    refine List.filter_congr fun id hid => ?_
    rw [decide_eq_decide, h.kept id (hg.top id hid)]
  have hderived : (new.map Merge.output).filter (fun id => decide (id ∉ ids)) = [] := by
    refine List.filter_eq_nil_iff.2 fun id hid => ?_
    obtain ⟨m, hm, rfl⟩ := List.mem_map.1 hid
    simp [(h.derivations m hm).2]
  have hlast : [d'.clusters.nextKey].filter (fun id => decide (id ∉ ids)) =
      [d'.clusters.nextKey] := by
    refine List.filter_eq_self.2 fun id hid => ?_
    rw [List.mem_singleton.1 hid, decide_eq_true_iff]
    exact fun hmem => hnew (h.mem_topLevel_of_mem hmem)
  show (ids.foldl OrderedSet.erase (d'.topLevel.insert d'.clusters.nextKey)).toList = _
  rw [OrderedSet.toList_foldl_erase, OrderedSet.toList_insert_of_not_mem hnew, h.topLevel,
    List.filter_append, List.filter_append, hold, hderived, hlast, List.append_nil]

/-- A sound plan takes a sound decomposition to a sound one. -/
theorem Sound.carryOut (h : d.Sound) (hp : plan.Sound d) :
    d.Carried plan (d.carryOut plan).1 (d.carryOut plan).2 := by
  obtain ⟨new, hpr⟩ := provided_provideAll h.grounded fun _ => hp.offers
  rw [carryOut_eq]
  refine ⟨hpr.sound_draft h hp, ⟨_, hpr.grown.trans (hpr.grown_draft h.grounded hp), ?_⟩, ?_,
    cluster?_addMerge.2 (.inr ⟨rfl, rfl⟩), hpr.topLevel_draft h.grounded⟩
  · intro m hm hr
    rcases List.mem_append.1 hm with hm | hm
    · rw [(hpr.derivations m hm).1] at hr
      cases hr
    · rw [List.mem_singleton.1 hm]
      exact hpr.lossless_draft h.grounded hp
  · intro hl
    exact not_live_nextKey (hpr.grown.live hl)

/-- What deriving a hedgehog keeps is kept by deriving all that a plan needs. -/
theorem Grounded.provideAll_induction {P : Decomposition → Prop} (hg : d.Grounded)
    (hin : ∀ i ∈ plan.inputs, ∃ c, d.Offers i c)
    (hderive : ∀ (x : Decomposition) (source : ClusterId) (centre : PointName) (arms : NameSet),
      x.Grounded → x.Live source → P x → P (x.derive source centre arms).2) (h : P d) :
    P (d.provideAll plan.inputs).2 := by
  generalize plan.inputs = inputs at hin
  induction inputs generalizing d with
  | nil => exact h
  | cons i rest ih =>
    obtain ⟨c, hc⟩ := hin i List.mem_cons_self
    obtain ⟨new, hone⟩ := provided_provide hg hc
    rw [provideAll_cons]
    -- One input after the other: what is on offer for the rest still is afterwards.
    refine ih hone.grounded ?_ fun j hj => ?_
    · cases i with
      | existing id => exact h
      | derived source centre arms =>
        have hs : d.Live source := by
          cases hc with
          | derived hs _ _ => exact hg.top _ hs.1
        exact hderive d source centre arms hg hs h
    · obtain ⟨c', hc'⟩ := hin j (List.mem_cons_of_mem _ hj)
      exact ⟨c', hc'.mono hone.onTop_mono⟩

/-- The draft of a merge reads clusters in use and consumes none but these; one that is derived is
no rigid. -/
structure Fits (x : Decomposition) (draft : MergeDraft) : Prop where
  inputs : ∀ id ∈ draft.inputs, x.Live id
  consumed : ∀ id ∈ draft.consumed, id ∈ draft.inputs
  derived : draft.rule.isDerivation = true → draft.output.isRigid = false

/-- What adding a merge of clusters in use keeps is kept by carrying out a plan. -/
theorem Grounded.carryOut_induction {P : Decomposition → Prop} (hg : d.Grounded)
    (hp : plan.Sound d)
    (hadd : ∀ (x : Decomposition) (draft : MergeDraft), x.Grounded → x.Fits draft → P x →
      P (x.addMerge draft).2)
    (h : P d) : P (d.carryOut plan).2 := by
  have hin : ∀ i ∈ plan.inputs, ∃ c, d.Offers i c := fun _ => hp.offers
  obtain ⟨new, hpr⟩ := provided_provideAll hg hin
  rw [carryOut_eq]
  refine hadd _ _ hpr.grounded ⟨fun id hid => ?_, fun _ hid => hid, fun hr => ?_⟩
    (hg.provideAll_induction hin (fun x source centre arms hx hs hP => ?_) h)
  · exact hpr.grounded.top id (hpr.mem_topLevel_of_mem hid)
  · rw [show (plan.draft _).rule = plan.rule from rfl, hp.rule] at hr
    cases hr
  · refine hadd x _ hx ⟨fun id hid => ?_, fun _ hid => absurd hid List.not_mem_nil, fun _ => rfl⟩ hP
    rw [List.mem_singleton.1 hid]
    exact hs

end Merging

end Decomposition

end PlanarSketch
