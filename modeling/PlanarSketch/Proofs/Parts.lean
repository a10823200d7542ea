/-
What a cluster is shown to consist of.

Below a cluster stand the inputs of the merge that computed it, derived
hedgehogs left out, below these the inputs of their merges, and so on.  A
cluster can be an input of many merges, but all except one of them derive
hedgehogs from it, and what was derived is not shown.  So whoever goes up from
a cluster has one way to go, and whoever goes down meets every cluster once.

* `Spread`: no merge reads a cluster twice, after any operation
  (`Reachable.spread`);
* `Under`: what stands right below a cluster;
* `shownAmong`: everything at and below a cluster, in the order in which it is
  shown;
* `Sound.shownAmong`: it is met once, and met if some way up leads to the
  cluster;
* `Reachable.shown_topLevel`: below the top level stands every cluster that was
  not derived, once.
-/
import Mathlib.Data.List.Nodup
import PlanarSketch.Proofs.Frontier
import PlanarSketch.Proofs.Lineage

namespace PlanarSketch

namespace Decomposition

variable {d d' : Decomposition} {a b c i j x id : ClusterId} {k : MergeId} {m : Merge}
  {ms : List Merge}

/-! ### The inputs of a merge -/

/-- Different clusters take part in a merge. -/
theorem Finding.nodup_sources {ps : List ClusterId} {plan : Plan} (h : Finding d ps plan)
    (hg : d.Grounded) : (plan.inputs.map PlanInput.source).Nodup := by
  have hpair : ∀ {i j : ClusterId}, i ≠ j → [i, j].Nodup := fun h => by simpa using h
  have htriple : ∀ {i j k : ClusterId}, i ≠ j → i ≠ k → j ≠ k → [i, j, k].Nodup :=
    fun h₁ h₂ h₃ => by simp [h₁, h₂, h₃]
  have hrigid {p : Placed} {h : PlacedHedgehog} (hp : d.OnTop p) (hh : d.OnTop h.placed)
      (hr : p.cluster.isRigid = true) : p.id ≠ h.id := by
    refine hp.id_ne_of_kind hh ?_
    rw [show p.cluster.kind = .rigid from of_decide_eq_true hr]
    exact nofun
  cases h with
  | absorb hc hh h =>
    obtain ⟨hhog, hcover, -, -, rfl⟩ := absorb?_eq_some h
    exact hpair (hc.id_ne_of_kind hh (hhog ▸ hcover))
  | balloonRigid hb hr h =>
    obtain ⟨hballoon, hrigid, -, rfl⟩ := balloonRigid?_eq_some h
    refine hpair (hb.id_ne_of_kind hr ?_)
    rw [hballoon, show _ = ClusterKind.rigid from of_decide_eq_true hrigid]
    exact nofun
  | pointRigid _ _ hne _ _ h =>
    obtain ⟨-, ⟨-, rfl⟩ | ⟨-, -, rfl⟩⟩ := pointRigid?_eq_some h
    · exact hpair hne
    · exact hpair hne.symm
  | rigidRigid _ _ hne _ h =>
    obtain ⟨-, -, rfl⟩ := rigidRigid?_eq_some h
    exact hpair hne.symm
  | balloons _ _ hne _ h =>
    obtain ⟨-, -, rfl⟩ := balloons?_eq_some h
    exact hpair hne.symm
  | hedgehogs _ _ hne h =>
    obtain ⟨arms, a, -, -, -, rfl⟩ := hedgehogs?_eq_some h
    exact hpair hne.symm
  | threeRigids _ _ _ hne₁ hne₂ _ h =>
    obtain ⟨-, -, hne, p, q, r, -, -, -, -, -, -, rfl⟩ := threeRigids?_eq_some h
    exact htriple hne₁.symm hne₂.symm hne.symm
  | angleBetween hr hn hh hne hrr hnr | angleBeside hr hn hh hne hrr hnr =>
    rw [joinByAngle, List.map_cons, List.map_cons, List.map_cons, source_withArms]
    exact htriple hne.symm (hrigid hr hh hrr) (hrigid hn hh hnr)
  | extend hs hh hk _ h =>
    obtain ⟨-, -, -, -, rfl⟩ := extendHedgehog?_eq_some h
    exact hpair (hh.id_ne_of_kind hs fun he => hk he.symm)
  | @triangle me other _ _ hm ho _ ha _ h =>
    obtain ⟨-, rfl⟩ := triangleOver?_eq_some h
    rw [List.map_cons, List.map_cons, source_withArms, source_withArms]
    -- No hedgehog has its own centre among its arms.
    refine hpair fun he => ?_
    have hsame := congrArg Placed.cluster (hm.eq_of_id ho he)
    obtain ⟨hcentre, harms⟩ := (Cluster.hedgehog.injEq ..).mp hsame
    have hvalid := Cluster.valid_hedgehog_iff.1 (hg.valid _ _ ho.2)
    exact hvalid.1 (hcentre ▸ ha)

/-- Inputs from different sources are different clusters. -/
theorem nodup_provideAll {inputs : List PlanInput} (hg : d.Grounded)
    (hin : ∀ i ∈ inputs, ∃ c, d.Offers i c) (hnd : (inputs.map PlanInput.source).Nodup) :
    (d.provideAll inputs).1.Nodup := by
  induction inputs generalizing d with
  | nil => exact List.nodup_nil
  | cons i rest ih =>
    obtain ⟨hnew, hrest⟩ := List.nodup_cons.1 hnd
    obtain ⟨c, hc⟩ := hin i List.mem_cons_self
    obtain ⟨new, hone⟩ := provided_provide hg hc
    have hin' : ∀ j ∈ rest, ∃ c, (d.provide i).2.Offers j c := fun j hj => by
      obtain ⟨c', hc'⟩ := hin j (List.mem_cons_of_mem _ hj)
      exact ⟨c', hc'.mono hone.onTop_mono⟩
    obtain ⟨new', hall⟩ := provided_provideAll hone.grounded hin'
    rw [provideAll_cons]
    refine List.nodup_cons.2 ⟨fun hmem => ?_, ih hone.grounded hin' hrest⟩
    -- What is there already can only be met again as an input that exists.
    obtain ⟨-, -, c', -, hlive⟩ := hone.onTop _ (List.mem_singleton_self _)
    have hagain := (hall.kept _ (live_of_cluster? hlive.2)).1 hmem
    cases i with
    | existing id => exact hnew (List.mem_map.2 ⟨_, hagain, rfl⟩)
    | derived source centre arms =>
      obtain ⟨c₂, hc₂⟩ := hin _ (List.mem_cons_of_mem _ hagain)
      exact not_live_nextKey (hg.top _ hc₂.source_mem)

/-- No merge reads a cluster twice. -/
def Spread (d : Decomposition) : Prop :=
  ∀ k m, d.merges.find? k = some m → m.rule.isDerivation = false → m.inputs.Nodup

theorem Spread.of_merges (h : d.Spread)
    (hm : ∀ k m, d'.merges.find? k = some m → d.merges.find? k = some m) : d'.Spread :=
  fun k m hk => h k m (hm k m hk)

theorem Spread.carryOut {ps : List ClusterId} {plan : Plan} (h : d.Spread) (hd : d.Sound)
    (hf : Finding d ps plan) : (d.carryOut plan).2.Spread := by
  intro k m hk hr
  rw [carryOut_eq] at hk
  rcases find?_addMerge.1 hk with hk | ⟨-, rfl⟩
  · rcases merge_of_provideAll hk with hk | hderived
    · exact h k m hk hr
    · rw [hr] at hderived
      cases hderived
  · exact nodup_provideAll hd.grounded (fun _ => (hf.sound hd.grounded).offers)
      (hf.nodup_sources hd.grounded)

theorem Reachable.spread (h : d.Reachable) : d.Spread := by
  refine h.induction_of_changes ?_ (fun _ hx => hx.of_merges fun _ _ hk => hk)
    (fun _ _ _ _ hx => hx.of_merges fun _ _ hk => hk) ?_ ?_ fun d hs hx => ?_
  · exact fun _ _ hk => by cases hk
  · exact fun d id hd hdet hx => hx.of_merges (hd.sound.dropCluster hdet).2.merges
  · intro d id p hd _ hx
    refine hx.of_merges fun k m hk => ?_
    have hk' := (hd.sound.reroot id).2.merges k m hk
    rwa [merges_withRootMark] at hk'
  · refine (hs.process_of_search (P := Spread) (fun _ _ hp => hp.of_merges fun _ _ hk => hk)
      (fun x id plan hx hp htop hsearch => ?_) hx).2
    obtain ⟨ps, hf⟩ := finding_of_search htop hsearch
    exact hp.carryOut hx hf

/-! ### One step down -/

/-- A merge that is no derivation reads `a`, which is not derived either, and has `b` as its
output. -/
def Under (d : Decomposition) (a b : ClusterId) : Prop :=
  ∃ k m, d.merges.find? k = some m ∧ a ∈ m.consumed ∧ d.isDerived a = false ∧ m.output = b

theorem Under.consumption (h : d.Under a b) :
    ∃ k m, d.merges.find? k = some m ∧ a ∈ m.consumed ∧ m.output = b := by
  obtain ⟨k, m, hk, hin, -, hout⟩ := h
  exact ⟨k, m, hk, hin, hout⟩

theorem Under.feeds (h : d.Under a b) (hg : d.Grounded) : d.Feeds a b := by
  obtain ⟨k, m, hk, hin, -, hout⟩ := h
  exact ⟨k, m, hk, ((hg.merge k m hk).mem_inputs hin).2, hout⟩

theorem Grounded.le_of_under (hg : d.Grounded) (h : Relation.ReflTransGen d.Under a b) :
    a.serial ≤ b.serial :=
  hg.le_of_leadsTo (h.lift id fun _ _ hu => hu.feeds hg)

/-- There is one way up. -/
theorem Sound.rightUnique_under (h : d.Sound) : Relator.RightUnique d.Under :=
  h.rightUnique fun _ _ hu => hu.consumption

/-- No cluster is below two others that stand side by side. -/
theorem Sound.eq_of_siblings (h : d.Sound) (hi : d.Under i c) (hj : d.Under j c)
    (hxi : Relation.ReflTransGen d.Under x i) (hxj : Relation.ReflTransGen d.Under x j) :
    i = j := by
  have hchain : ∀ {i j}, d.Under i c → d.Under j c → Relation.ReflTransGen d.Under i j →
      i = j := by
    intro i j hi hj hij
    rcases Relation.ReflTransGen.cases_head hij with he | ⟨z, hz, hzj⟩
    · exact he
    · obtain rfl := h.rightUnique_under hi hz
      exact absurd (h.grounded.serial_lt_of_feeds (hj.feeds h.grounded))
        (Nat.not_lt.2 (h.grounded.le_of_under hzj))
  rcases Relation.ReflTransGen.total_of_right_unique h.rightUnique_under hxi hxj with hij | hji
  · exact hchain hi hj hij
  · exact (hchain hj hi hji).symm

theorem isDerived_eq_false_iff (hg : d.Grounded) : d.isDerived id = false ↔
    ∀ k m, d.merges.find? k = some m → m.output = id → m.rule.isDerivation = false := by
  rw [← Bool.not_eq_true, hg.isDerived_iff]
  constructor
  · intro hno k m hk hout
    rw [← Bool.not_eq_true]
    exact fun hr => hno ⟨k, m, hk, hout, hr⟩
  · rintro hall ⟨k, m, hk, hout, hr⟩
    rw [hall k m hk hout] at hr
    cases hr

/-- What stands right below the output of a merge. -/
theorem Grounded.under_iff (hg : d.Grounded) (hk : d.merges.find? k = some m)
    (hr : m.rule.isDerivation = false) :
    d.Under a m.output ↔ a ∈ m.inputs ∧ d.isDerived a = false := by
  have hconsumed : m.consumed = m.inputs := by
    rw [(hg.merge k m hk).consumption, hr]
    rfl
  constructor
  · rintro ⟨k', m', hk', hin, ha, hout⟩
    obtain rfl := hg.outputOnce k' k m' m hk' hk hout
    obtain rfl := Option.some_inj.1 (hk'.symm.trans hk)
    exact ⟨hconsumed ▸ hin, ha⟩
  · exact fun ⟨hin, ha⟩ => ⟨k, m, hk, hconsumed ▸ hin, ha, rfl⟩

/-- What is shown right below a cluster: the inputs of its merge, derived hedgehogs left out. -/
def parts (d : Decomposition) (id : ClusterId) : List ClusterId :=
  match (d.determining? id).bind d.merges.find? with
  | some m => m.inputs.filter fun i => !d.isDerived i
  | none => []

theorem parts_of_not_output (h : ∀ k m, d.merges.find? k = some m → m.output ≠ id) :
    d.parts id = [] := by
  unfold parts
  rw [determining?_eq_none.2 h]
  rfl

theorem Grounded.parts_output (hg : d.Grounded) (hk : d.merges.find? k = some m) :
    d.parts m.output = m.inputs.filter fun i => !d.isDerived i := by
  unfold parts
  cases hdet : d.determining? m.output with
  | none => exact absurd rfl (determining?_eq_none.1 hdet k m hk)
  | some j =>
    obtain ⟨m', hj, hout⟩ := find?_of_determining? hdet
    obtain rfl := hg.outputOnce j k m' m hj hk hout
    rw [Option.bind_some, hk]

/-- Going down ends: parts are older. -/
theorem Grounded.lt_of_mem_parts (hg : d.Grounded) (hi : i ∈ d.parts id) :
    i.serial < id.serial := by
  by_cases h : ∃ k m, d.merges.find? k = some m ∧ m.output = id
  · obtain ⟨k, m, hk, rfl⟩ := h
    rw [hg.parts_output hk] at hi
    exact (hg.merge k m hk).younger i (List.mem_of_mem_filter hi)
  · rw [parts_of_not_output fun k m hk hout => h ⟨k, m, hk, hout⟩] at hi
    cases hi

/-! ### All the way down -/

/-- The cluster and everything below it in the order in which it is shown, where the merges are
given youngest first. -/
def shownAmong (d : Decomposition) : List Merge → ClusterId → List ClusterId
  | [], id => [id]
  | m :: older, id =>
    if m.output = id then
      id :: (m.inputs.filter fun i => !d.isDerived i).flatMap (d.shownAmong older)
    else d.shownAmong older id

/-- The merges are given youngest first, and none is missing that computed the cluster or what it
was computed from. -/
structure Explains (d : Decomposition) (ms : List Merge) (id : ClusterId) : Prop where
  sorted : ms.Pairwise fun m m' => m'.output.serial < m.output.serial
  mem_values : ∀ m ∈ ms, m ∈ d.merges.values
  complete : ∀ m ∈ d.merges.values, d.LeadsTo m.output id → m ∈ ms

/-- The merge of a cluster explains it together with the older merges, which explain the inputs. -/
theorem Explains.of_input {older : List Merge} (h : d.Explains (m :: older) m.output)
    (hg : d.Grounded) (hi : i ∈ m.inputs) : d.Explains older i := by
  obtain ⟨k, hk⟩ := Registry.mem_values_iff.1 (h.mem_values m List.mem_cons_self)
  refine ⟨(List.pairwise_cons.1 h.sorted).2,
    fun m' hm' => h.mem_values m' (List.mem_cons_of_mem m hm'), fun m' hm' hlead => ?_⟩
  have hmem := h.complete m' hm' (hlead.tail ⟨k, m, hk, hi, rfl⟩)
  refine (List.mem_cons.1 hmem).resolve_left ?_
  rintro rfl
  exact absurd ((hg.merge k m' hk).younger i hi) (Nat.not_lt.2 (hg.le_of_leadsTo hlead))

/-- A younger merge with another output has nothing to do with the cluster. -/
theorem Explains.of_other {older : List Merge} (h : d.Explains (m :: older) id) (hg : d.Grounded)
    (hne : m.output ≠ id) : d.Explains older id := by
  obtain ⟨hyoungest, hsorted⟩ := List.pairwise_cons.1 h.sorted
  refine ⟨hsorted, fun m' hm' => h.mem_values m' (List.mem_cons_of_mem m hm'),
    fun m' hm' hlead => ?_⟩
  refine (List.mem_cons.1 (h.complete m' hm' hlead)).resolve_left ?_
  rintro rfl
  -- The last merge on the way would be younger than this one.
  rcases Relation.ReflTransGen.cases_tail hlead with he | ⟨b, hb, k, last, hk, hin, rfl⟩
  · exact hne he.symm
  · have hlast := h.complete last (Registry.mem_values_iff.2 ⟨k, hk⟩) .refl
    have hlt := Nat.lt_of_le_of_lt (hg.le_of_leadsTo hb) ((hg.merge k last hk).younger b hin)
    rcases List.mem_cons.1 hlast with rfl | hlast
    · exact hne rfl
    · exact absurd (hyoungest last hlast) (Nat.not_lt.2 (Nat.le_of_lt hlt))

theorem Lineage.explains (h : d.Lineage) (id : ClusterId) : d.Explains d.mergesByYouth id where
  sorted := List.pairwise_reverse.2 h.pairwise_values
  mem_values := fun _ hm => List.mem_reverse.1 hm
  complete := fun _ hm _ => List.mem_reverse.2 hm

/-- Everything below a cluster that is not derived is shown once. -/
theorem Sound.shownAmong (h : d.Sound) (hspread : d.Spread) (he : d.Explains ms id)
    (hid : d.isDerived id = false) :
    (d.shownAmong ms id).Nodup ∧
      ∀ x, x ∈ d.shownAmong ms id ↔ Relation.ReflTransGen d.Under x id := by
  induction ms generalizing id with
  | nil =>
    refine ⟨List.nodup_singleton id, fun x => ?_⟩
    rw [Decomposition.shownAmong, List.mem_singleton]
    constructor
    · rintro rfl
      exact .refl
    · intro hx
      rcases Relation.ReflTransGen.cases_tail hx with hx | ⟨b, -, k, m, hk, -, -, rfl⟩
      · exact hx.symm
      · exact absurd (he.complete m (Registry.mem_values_iff.2 ⟨k, hk⟩) .refl) List.not_mem_nil
  | cons m older ih =>
    rw [Decomposition.shownAmong]
    split
    · rename_i hout
      subst hout
      obtain ⟨k, hk⟩ := Registry.mem_values_iff.1 (he.mem_values m List.mem_cons_self)
      have hr := (isDerived_eq_false_iff h.grounded).1 hid k m hk rfl
      have hunder {i : ClusterId} : i ∈ (m.inputs.filter fun i => !d.isDerived i) ↔
          d.Under i m.output := by
        rw [h.grounded.under_iff hk hr, List.mem_filter, Bool.not_eq_true']
      have hpart {i : ClusterId} (hi : d.Under i m.output) :=
        have hin := (h.grounded.under_iff hk hr).1 hi
        ih (he.of_input h.grounded hin.1) hin.2
      have hmem (x : ClusterId) :
          x ∈ (m.inputs.filter fun i => !d.isDerived i).flatMap (d.shownAmong older) ↔
            ∃ i, d.Under i m.output ∧ Relation.ReflTransGen d.Under x i := by
        rw [List.mem_flatMap]
        refine exists_congr fun i => ?_
        rw [hunder]
        exact and_congr_right fun hi => (hpart hi).2 x
      refine ⟨List.nodup_cons.2 ⟨fun hself => ?_, List.nodup_flatMap.2 ⟨fun i hi => ?_, ?_⟩⟩,
        fun x => ?_⟩
      · obtain ⟨i, hi, hle⟩ := (hmem _).1 hself
        exact absurd (h.grounded.serial_lt_of_feeds (hi.feeds h.grounded))
          (Nat.not_lt.2 (h.grounded.le_of_under hle))
      · exact (hpart (hunder.1 hi)).1
      · -- What two inputs share would have two ways up.
        refine ((hspread k m hk hr).filter _).imp_of_mem fun {i j} hi hj hne => ?_
        refine List.disjoint_left.2 fun x hxi hxj => hne ?_
        exact h.eq_of_siblings (hunder.1 hi) (hunder.1 hj) (((hpart (hunder.1 hi)).2 x).1 hxi)
          (((hpart (hunder.1 hj)).2 x).1 hxj)
      · rw [List.mem_cons, hmem, Relation.ReflTransGen.cases_tail_iff]
        exact or_congr eq_comm (exists_congr fun i => and_comm)
    · rename_i hne
      exact ih (he.of_other h.grounded hne) hid

/-- A cluster that is not derived is below one on the top level. -/
theorem Sound.exists_topLevel_above (h : d.Sound) (hid : d.Live id) (hd : d.isDerived id = false) :
    ∃ t ∈ d.topLevel, Relation.ReflTransGen d.Under id t := by
  have hstep : ∀ k m x, d.merges.find? k = some m → x ∈ m.consumed →
      (d.Live x ∧ d.isDerived x = false ∧ Relation.ReflTransGen d.Under id x) →
      d.Live m.output ∧ d.isDerived m.output = false ∧
        Relation.ReflTransGen d.Under id m.output := by
    rintro k m x hk hmem ⟨-, hx, hup⟩
    have hs := h.grounded.merge k m hk
    refine ⟨hs.output, ?_, hup.tail ⟨k, m, hk, hmem, hx, rfl⟩⟩
    refine (isDerived_eq_false_iff h.grounded).2 fun k' m' hk' hout => ?_
    obtain rfl := h.grounded.outputOnce k' k m' m hk' hk hout
    rw [Option.some_inj.1 (hk'.symm.trans hk)]
    exact (hs.mem_inputs hmem).1
  obtain ⟨t, ht, -, -, hup⟩ := h.exists_topLevel (fun _ hx => hx.1) hstep ⟨hid, hd, .refl⟩
  exact ⟨t, ht, hup⟩

theorem Sound.not_derived_of_topLevel (h : d.Sound) (hid : id ∈ d.topLevel) :
    d.isDerived id = false := by
  refine (isDerived_eq_false_iff h.grounded).2 fun k m hk hout => ?_
  rw [← Bool.not_eq_true]
  exact fun hr => h.settled.hidden k m hk hr (by simp) (hout ▸ hid)

/-- Below the top level stands every cluster that is not derived, once. -/
theorem Reachable.shown_topLevel (h : d.Reachable) :
    (d.topLevel.toList.flatMap (d.shownAmong d.mergesByYouth)).Nodup ∧
      ∀ id, id ∈ d.topLevel.toList.flatMap (d.shownAmong d.mergesByYouth) ↔
        d.Live id ∧ d.isDerived id = false := by
  have hs := h.sound
  have hshown {t : ClusterId} (ht : t ∈ d.topLevel) :=
    hs.shownAmong h.spread (h.lineage.explains t) (hs.not_derived_of_topLevel ht)
  refine ⟨List.nodup_flatMap.2 ⟨fun t ht => (hshown ht).1, ?_⟩, fun id => ?_⟩
  · -- A cluster that stood below two would be consumed twice.
    refine d.topLevel.nodup.imp_of_mem fun {a b} ha hb hne => ?_
    refine List.disjoint_left.2 fun x hxa hxb => hne ?_
    exact hs.eq_of_common_source (fun _ _ hu => hu.consumption) ha hb (((hshown ha).2 x).1 hxa)
      (((hshown hb).2 x).1 hxb)
  · rw [List.mem_flatMap]
    constructor
    · rintro ⟨t, ht, hmem⟩
      rcases Relation.ReflTransGen.cases_head (((hshown ht).2 id).1 hmem) with
        rfl | ⟨z, ⟨k, m, hk, hin, hd, -⟩, -⟩
      · exact ⟨hs.grounded.top _ ht, hs.not_derived_of_topLevel ht⟩
      · have hstands := hs.grounded.merge k m hk
        exact ⟨hstands.inputs id (hstands.mem_inputs hin).2, hd⟩
    · rintro ⟨hlive, hd⟩
      obtain ⟨t, ht, hup⟩ := hs.exists_topLevel_above hlive hd
      exact ⟨t, ht, ((hshown ht).2 id).2 hup⟩

end Decomposition

end PlanarSketch
