/-
Lineage: which clusters a cluster was computed from.

One cluster feeds another if a merge reads the one and has the other as its
output, and it leads to whatever it feeds through any number of merges.  The
lineage of a cluster is settled when it comes into use: later merges have new
outputs, and so does everything that is computed from those.

* `Feeds`, `LeadsTo`: the dependencies;
* `PartOf`: a decomposition has grown to another one, in which whatever is
  new has a new key (`Sound.partOf_process`);
* `PartOf.leadsTo_iff`: growing leaves the lineage of a cluster in use alone;
* `Lineage`: younger merges have younger outputs, and no hedgehog is derived
  from a derived one, after any operation (`Reachable.lineage`);
* `dependsOn_iff`: so the single walk through the merges that looks up a
  dependency meets all of them.
-/
import Mathlib.Logic.Relation
import PlanarSketch.Proofs.Runs

namespace PlanarSketch

/-- The cluster that an input of a plan is taken or derived from. -/
def PlanInput.source : PlanInput → ClusterId
  | .existing id => id
  | .derived source _ _ => source

/-- The edit adds something whose key was handed out after `d` and not after `d'`. -/
def Edit.AddsBetween (d d' : Decomposition) : Edit → Prop
  | .clusterAdded id => d.clusters.issued < id.serial ∧ id.serial ≤ d'.clusters.issued
  | .mergeAdded k => d.merges.issued < k.serial ∧ k.serial ≤ d'.merges.issued
  | .mergeRemoved _ => False
  | .clusterRemoved _ => False

theorem Registry.issued_lt_of_find?_insert {α : Type} {r : Registry α} {k : Key α} {a b : α}
    (h : (r.insert a).find? k = some b) : r.find? k = some b ∨ r.issued < k.serial ∧ b = a := by
  rcases find?_insert_eq_some.1 h with h | ⟨rfl, rfl⟩
  · exact .inl h
  · exact .inr ⟨Nat.lt_succ_self _, rfl⟩

theorem Registry.serial_le_issued {α : Type} {r : Registry α} {k : Key α} {a : α}
    (h : r.find? k = some a) : k.serial ≤ r.issued :=
  (r.bounded k (mem_keys_of_find? h)).2

namespace Decomposition

variable {d d' d'' : Decomposition} {a b id : ClusterId}

/-! ### Dependencies -/

/-- Some merge reads `a` and has `b` as its output. -/
def Feeds (d : Decomposition) (a b : ClusterId) : Prop :=
  ∃ k m, d.merges.find? k = some m ∧ a ∈ m.inputs ∧ m.output = b

/-- `b` is `a` or was computed from it, directly or not. -/
abbrev LeadsTo (d : Decomposition) : ClusterId → ClusterId → Prop := Relation.ReflTransGen d.Feeds

theorem Grounded.serial_lt_of_feeds (hg : d.Grounded) (h : d.Feeds a b) : a.serial < b.serial := by
  obtain ⟨k, m, hk, hin, rfl⟩ := h
  exact (hg.merge k m hk).younger a hin

theorem Grounded.le_of_leadsTo (hg : d.Grounded) (h : d.LeadsTo a b) : a.serial ≤ b.serial := by
  induction h with
  | refl => exact Nat.le_refl _
  | tail _ hstep ih => exact Nat.le_trans ih (Nat.le_of_lt (hg.serial_lt_of_feeds hstep))

/-- A dependency carries over to a decomposition that has the merges of all ancestors.  `P` holds of
`b` and of the inputs of every merge whose output it holds of. -/
theorem LeadsTo.transfer {P : ClusterId → Prop} (h : d.LeadsTo a b) (hb : P b)
    (hm : ∀ k m, d.merges.find? k = some m → P m.output →
      d'.merges.find? k = some m ∧ ∀ i ∈ m.inputs, P i) : d'.LeadsTo a b := by
  induction h with
  | refl => exact .refl
  | tail _ hstep ih =>
    obtain ⟨k, m, hk, hin, rfl⟩ := hstep
    obtain ⟨hk', hP⟩ := hm k m hk hb
    exact (ih (hP _ hin)).tail ⟨k, m, hk', hin, rfl⟩

theorem LeadsTo.mono (h : d.LeadsTo a b)
    (hm : ∀ k m, d.merges.find? k = some m → d'.merges.find? k = some m) : d'.LeadsTo a b :=
  h.transfer (P := fun _ => True) trivial fun k m hk _ => ⟨hm k m hk, fun _ _ => trivial⟩

/-- What is not in use leads to nothing but itself. -/
theorem Grounded.eq_of_leadsTo (hg : d.Grounded) (ha : ¬d.Live a) (h : d.LeadsTo a b) : a = b := by
  rcases Relation.ReflTransGen.cases_head h with he | ⟨c, ⟨k, m, hk, hin, -⟩, -⟩
  · exact he
  · exact absurd ((hg.merge k m hk).inputs a hin) ha

/-- Chains along merges that consume what they read do not branch: a cluster is consumed at most
once. -/
theorem Sound.rightUnique {R : ClusterId → ClusterId → Prop} (h : d.Sound)
    (hR : ∀ x y, R x y → ∃ k m, d.merges.find? k = some m ∧ x ∈ m.consumed ∧ m.output = y) :
    Relator.RightUnique R := by
  intro x y z hy hz
  obtain ⟨k₁, m₁, h₁, hc₁, rfl⟩ := hR x y hy
  obtain ⟨k₂, m₂, h₂, hc₂, rfl⟩ := hR x z hz
  obtain rfl := h.settled.consumedOnce k₁ k₂ m₁ m₂ x h₁ h₂ hc₁ hc₂
  rw [Option.some_inj.1 (h₁.symm.trans h₂)]

/-- Two clusters on the top level are the same if such chains lead to both from one cluster. -/
theorem Sound.eq_of_common_source {R : ClusterId → ClusterId → Prop} {s : ClusterId} (h : d.Sound)
    (hR : ∀ x y, R x y → ∃ k m, d.merges.find? k = some m ∧ x ∈ m.consumed ∧ m.output = y)
    (ha : a ∈ d.topLevel) (hb : b ∈ d.topLevel) (hsa : Relation.ReflTransGen R s a)
    (hsb : Relation.ReflTransGen R s b) : a = b := by
  have hend : ∀ {x y}, x ∈ d.topLevel → Relation.ReflTransGen R x y → x = y := by
    intro x y hx hxy
    rcases Relation.ReflTransGen.cases_head hxy with he | ⟨z, hz, -⟩
    · exact he
    · obtain ⟨k, m, hk, hc, -⟩ := hR x z hz
      exact absurd ⟨k, m, hk, hc⟩ ((h.settled.frontier x (h.grounded.top x hx) (by simp)).1 hx)
  rcases Relation.ReflTransGen.total_of_right_unique (h.rightUnique hR) hsa hsb with hab | hba
  · exact hend ha hab
  · exact (hend hb hba).symm

/-! ### Growing -/

/-- `d` has grown to `d'`: it is all still there, and whatever is new has a key that was handed out
since. -/
structure PartOf (d d' : Decomposition) : Prop where
  clusters : ∀ id n, d.clusters.find? id = some n → d'.clusters.find? id = some n
  merges : ∀ k m, d.merges.find? k = some m → d'.merges.find? k = some m
  newCluster : ∀ id n, d'.clusters.find? id = some n →
    d.clusters.find? id = some n ∨ d.clusters.issued < id.serial
  newMerge : ∀ k m, d'.merges.find? k = some m → d.merges.find? k = some m ∨
    d.merges.issued < k.serial ∧ d.clusters.issued < m.output.serial
  clustersIssued : d.clusters.issued ≤ d'.clusters.issued
  mergesIssued : d.merges.issued ≤ d'.merges.issued
  root : d'.root = d.root
  journal : ∀ e ∈ d'.journal, e ∈ d.journal ∨ e.AddsBetween d d'

theorem PartOf.of_eq (hc : d'.clusters = d.clusters) (hm : d'.merges = d.merges)
    (hr : d'.root = d.root) (hj : d'.journal = d.journal) : d.PartOf d' := by
  refine ⟨?_, ?_, ?_, ?_, ?_, ?_, hr, fun e he => .inl (hj ▸ he)⟩
  · exact fun id n h => hc ▸ h
  · exact fun k m h => hm ▸ h
  · exact fun id n h => .inl (hc ▸ h)
  · exact fun k m h => .inl (hm ▸ h)
  · exact Nat.le_of_eq (by rw [hc])
  · exact Nat.le_of_eq (by rw [hm])

theorem PartOf.refl (d : Decomposition) : d.PartOf d := .of_eq rfl rfl rfl rfl

theorem PartOf.trans (h : d.PartOf d') (h' : d'.PartOf d'') : d.PartOf d'' := by
  have hci := h.clustersIssued
  have hmi := h.mergesIssued
  refine ⟨fun id n hn => h'.clusters id n (h.clusters id n hn),
    fun k m hm => h'.merges k m (h.merges k m hm), fun id n hn => ?_, fun k m hm => ?_,
    Nat.le_trans hci h'.clustersIssued, Nat.le_trans hmi h'.mergesIssued,
    h'.root.trans h.root, fun e he => ?_⟩
  · -- What is new in the second stretch has a key above those issued before.
    rcases h'.newCluster id n hn with hn | hn
    · exact h.newCluster id n hn
    · exact .inr (Nat.lt_of_le_of_lt hci hn)
  · rcases h'.newMerge k m hm with hm | ⟨hk, ho⟩
    · exact h.newMerge k m hm
    · exact .inr ⟨Nat.lt_of_le_of_lt hmi hk, Nat.lt_of_le_of_lt hci ho⟩
  · rcases h'.journal e he with he | he
    · refine (h.journal e he).imp id fun hb => ?_
      have hci' := h'.clustersIssued
      have hmi' := h'.mergesIssued
      -- An edit of the first stretch names a key issued by then, so by now as well.
      cases e with
      | clusterAdded i => exact ⟨hb.1, Nat.le_trans hb.2 hci'⟩
      | mergeAdded k => exact ⟨hb.1, Nat.le_trans hb.2 hmi'⟩
      | mergeRemoved k => exact hb
      | clusterRemoved i => exact hb
    · refine .inr ?_
      cases e with
      | clusterAdded i => exact ⟨Nat.lt_of_le_of_lt hci he.1, he.2⟩
      | mergeAdded k => exact ⟨Nat.lt_of_le_of_lt hmi he.1, he.2⟩
      | mergeRemoved k => exact he
      | clusterRemoved i => exact he

theorem PartOf.withoutJournal (h : d.PartOf d') : d.PartOf d'.withoutJournal :=
  ⟨h.clusters, h.merges, h.newCluster, h.newMerge, h.clustersIssued, h.mergesIssued, h.root,
    fun _ he => by cases he⟩

theorem PartOf.live (h : d.PartOf d') (hid : d.Live id) : d'.Live id := by
  obtain ⟨n, hn⟩ := Registry.mem_keys_iff.1 hid
  exact Registry.mem_keys_of_find? (h.clusters id n hn)

theorem PartOf.cluster?_eq_some (h : d.PartOf d') {c : Cluster} (hc : d.cluster? id = some c) :
    d'.cluster? id = some c := by
  obtain ⟨n, hn, hcluster⟩ := Option.map_eq_some_iff.1 hc
  exact Option.map_eq_some_iff.2 ⟨n, h.clusters id n hn, hcluster⟩

/-- A cluster in use is an old one if its key had been handed out. -/
theorem PartOf.live_of_le (h : d.PartOf d') (hid : d'.Live id)
    (hle : id.serial ≤ d.clusters.issued) : d.Live id := by
  obtain ⟨n, hn⟩ := Registry.mem_keys_iff.1 hid
  rcases h.newCluster id n hn with hn | hlt
  · exact Registry.mem_keys_of_find? hn
  · omega

theorem serial_le_of_live (h : d.Live id) : id.serial ≤ d.clusters.issued :=
  (d.clusters.bounded id h).2

/-- The merge of an old output is an old one. -/
theorem PartOf.find?_of_output (h : d.PartOf d') {k : MergeId} {m : Merge}
    (hk : d'.merges.find? k = some m) (hl : d.Live m.output) : d.merges.find? k = some m := by
  rcases h.newMerge k m hk with hk | ⟨-, hlt⟩
  · exact hk
  · have hle := serial_le_of_live hl
    omega

/-- What a cluster was computed from does not change when the decomposition grows. -/
theorem PartOf.leadsTo_iff (h : d.PartOf d') (hg : d.Grounded) (hb : d.Live b) :
    d'.LeadsTo a b ↔ d.LeadsTo a b := by
  refine ⟨fun hab => hab.transfer (P := d.Live) hb fun k m hk hl => ?_,
    fun hab => hab.mono h.merges⟩
  have hold := h.find?_of_output hk hl
  exact ⟨hold, (hg.merge k m hold).inputs⟩

theorem partOf_insertCluster (d : Decomposition) (node : ClusterNode) :
    d.PartOf (d.insertCluster node).2 := by
  refine ⟨fun id n hn => Registry.find?_insert_eq_some.2 (.inl hn), fun _ _ hm => hm, ?_,
    fun _ _ hm => .inl hm, Nat.le_succ _, Nat.le_refl _, rfl, fun e he => ?_⟩
  · intro id n hn
    exact (Registry.issued_lt_of_find?_insert hn).imp_right And.left
  · rcases List.mem_append.1 he with he | he
    · exact .inl he
    · rw [List.mem_singleton.1 he]
      exact .inr ⟨Nat.lt_succ_self _, Nat.le_refl _⟩

theorem partOf_addMerge (d : Decomposition) (draft : MergeDraft) :
    d.PartOf (d.addMerge draft).2 := by
  have hi := partOf_insertCluster d (d.outputFor draft)
  rw [addMerge_eq]
  refine ⟨hi.clusters, fun k m hm => Registry.find?_insert_eq_some.2 (.inl hm), hi.newCluster, ?_,
    hi.clustersIssued, Nat.le_succ _, hi.root, fun e he => ?_⟩
  · intro k m hm
    refine (Registry.issued_lt_of_find?_insert hm).imp id fun hk => ?_
    rw [hk.2]
    exact ⟨hk.1, Nat.lt_succ_self _⟩
  · rcases List.mem_append.1 he with he | he
    · refine (hi.journal e he).imp id fun hb => ?_
      cases e with
      | clusterAdded i => exact hb
      | mergeAdded k => exact ⟨hb.1, Nat.le_succ_of_le hb.2⟩
      | mergeRemoved k => exact hb
      | clusterRemoved i => exact hb
    · rw [List.mem_singleton.1 he]
      exact .inr ⟨Nat.lt_succ_self _, Nat.le_refl _⟩

theorem partOf_provide (d : Decomposition) (i : PlanInput) : d.PartOf (d.provide i).2 := by
  cases i with
  | existing id => exact .refl d
  | derived source centre arms => exact partOf_addMerge d _

theorem partOf_provideAll (inputs : List PlanInput) (d : Decomposition) :
    d.PartOf (d.provideAll inputs).2 := by
  induction inputs generalizing d with
  | nil => exact .refl d
  | cons i rest ih =>
    rw [provideAll_cons]
    exact (partOf_provide d i).trans (ih _)

theorem partOf_carryOut (d : Decomposition) (plan : Plan) : d.PartOf (d.carryOut plan).2 :=
  (partOf_provideAll plan.inputs d).trans (partOf_addMerge _ _)

theorem partOf_receive (d : Decomposition) (c : Cluster) : d.PartOf (d.receive c).2 :=
  (partOf_insertCluster d _).trans (.of_eq rfl rfl rfl rfl)

/-- The search only lets a decomposition grow. -/
theorem Sound.partOf_process (h : d.Sound) : d.PartOf d.process :=
  (h.process_of_search (P := d.PartOf) (fun _ _ hp => hp.trans (.of_eq rfl rfl rfl rfl))
    (fun x _ plan _ hp _ _ => hp.trans (x.partOf_carryOut plan)) (.refl d)).2

/-! ### The order of merges, and derived hedgehogs -/

/-- A younger merge has a younger output, and no hedgehog is derived from a derived one. -/
structure Lineage (d : Decomposition) : Prop where
  aged : ∀ k₁ k₂ m₁ m₂, d.merges.find? k₁ = some m₁ → d.merges.find? k₂ = some m₂ →
    k₁.serial < k₂.serial → m₁.output.serial < m₂.output.serial
  firsthand : ∀ k₁ k₂ m₁ m₂, d.merges.find? k₁ = some m₁ → d.merges.find? k₂ = some m₂ →
    m₁.rule.isDerivation = true → m₂.rule.isDerivation = true → m₁.output ∉ m₂.inputs

theorem Lineage.of_merges (h : d.Lineage)
    (hm : ∀ k m, d'.merges.find? k = some m → d.merges.find? k = some m) : d'.Lineage :=
  ⟨fun k₁ k₂ m₁ m₂ h₁ h₂ => h.aged k₁ k₂ m₁ m₂ (hm k₁ m₁ h₁) (hm k₂ m₂ h₂),
    fun k₁ k₂ m₁ m₂ h₁ h₂ => h.firsthand k₁ k₂ m₁ m₂ (hm k₁ m₁ h₁) (hm k₂ m₂ h₂)⟩

theorem Lineage.addMerge {draft : MergeDraft} (h : d.Lineage) (hg : d.Grounded)
    (hin : ∀ id ∈ draft.inputs, d.Live id)
    (hsrc : draft.rule.isDerivation = true → ∀ k m, d.merges.find? k = some m →
      m.rule.isDerivation = true → m.output ∉ draft.inputs) : (d.addMerge draft).2.Lineage := by
  constructor
  · intro k₁ k₂ m₁ m₂ h₁ h₂ hlt
    rcases find?_addMerge.1 h₁ with h₁ | ⟨rfl, -⟩
    · rcases find?_addMerge.1 h₂ with h₂ | ⟨-, rfl⟩
      · exact h.aged k₁ k₂ m₁ m₂ h₁ h₂ hlt
      · exact Registry.serial_lt_nextKey (hg.merge k₁ m₁ h₁).output
    · -- No key is younger than the one handed out last.
      have hle : k₂.serial ≤ (d.addMerge draft).2.merges.issued := Registry.serial_le_issued h₂
      exact absurd hlt (Nat.not_lt.2 hle)
  · intro k₁ k₂ m₁ m₂ h₁ h₂ hr₁ hr₂
    rcases find?_addMerge.1 h₂ with h₂ | ⟨-, rfl⟩
    · rcases find?_addMerge.1 h₁ with h₁ | ⟨-, rfl⟩
      · exact h.firsthand k₁ k₂ m₁ m₂ h₁ h₂ hr₁ hr₂
      · exact fun hmem => not_live_nextKey ((hg.merge k₂ m₂ h₂).inputs _ hmem)
    · rcases find?_addMerge.1 h₁ with h₁ | ⟨-, rfl⟩
      · exact hsrc hr₂ k₁ m₁ h₁ hr₁
      · exact fun hmem => not_live_nextKey (hin _ hmem)

theorem Offers.source_mem {i : PlanInput} {c : Cluster} (h : d.Offers i c) :
    i.source ∈ d.topLevel := by
  cases h with
  | existing hp => exact hp.1
  | derived hs _ _ => exact hs.1

/-- Hedgehogs are derived from clusters that no derivation computed, also while others are being
derived for the same plan. -/
theorem Lineage.provideAll {inputs : List PlanInput} (h : d.Lineage) (hg : d.Grounded)
    (hin : ∀ i ∈ inputs, ∃ c, d.Offers i c)
    (hsrc : ∀ i ∈ inputs, ∀ k m, d.merges.find? k = some m → m.rule.isDerivation = true →
      m.output ≠ i.source) : (d.provideAll inputs).2.Lineage := by
  induction inputs generalizing d with
  | nil => exact h
  | cons i rest ih =>
    obtain ⟨c, hc⟩ := hin i List.mem_cons_self
    have hrest : ∀ j ∈ rest, ∃ c, d.Offers j c := fun j hj => hin j (List.mem_cons_of_mem _ hj)
    obtain ⟨new, hone⟩ := provided_provide hg hc
    have hline : (d.provide i).2.Lineage := by
      cases i with
      | existing id => exact h
      | derived source centre arms =>
        refine h.addMerge hg (fun id hid => ?_) fun _ k m hk hr hmem => ?_
        · rw [List.mem_singleton.1 hid]
          exact hg.top _ hc.source_mem
        · exact hsrc _ List.mem_cons_self k m hk hr (List.mem_singleton.1 hmem)
    rw [provideAll_cons]
    refine ih hline hone.grounded (fun j hj => ?_) fun j hj k m hk hr => ?_
    · obtain ⟨c', hc'⟩ := hrest j hj
      exact ⟨c', hc'.mono hone.onTop_mono⟩
    · obtain ⟨c', hc'⟩ := hrest j hj
      rcases (partOf_provide d i).newMerge k m hk with hk | ⟨-, hlt⟩
      · exact hsrc j (List.mem_cons_of_mem _ hj) k m hk hr
      · -- What was derived just now is younger than any source.
        intro he
        have hle := serial_le_of_live (hg.top _ hc'.source_mem)
        rw [he] at hlt
        omega

theorem Lineage.carryOut {plan : Plan} (h : d.Lineage) (hd : d.Sound) (hp : plan.Sound d) :
    (d.carryOut plan).2.Lineage := by
  have hin : ∀ i ∈ plan.inputs, ∃ c, d.Offers i c := fun _ => hp.offers
  obtain ⟨new, hpr⟩ := provided_provideAll hd.grounded hin
  have hall := h.provideAll hd.grounded hin fun i hi k m hk hr he => by
    obtain ⟨c, hc⟩ := hin i hi
    exact hd.settled.hidden k m hk hr (by simp) (he ▸ hc.source_mem)
  rw [carryOut_eq]
  refine hall.addMerge hpr.grounded (fun id hid => ?_) fun hr => ?_
  · exact hpr.grounded.top id (hpr.mem_topLevel_of_mem hid)
  · rw [show (plan.draft _).rule = plan.rule from rfl, hp.rule] at hr
    cases hr

theorem Lineage.process (h : d.Lineage) (hd : d.Sound) : d.process.Lineage :=
  (hd.process_of_search (P := Lineage) (fun _ _ hp => hp.of_merges fun _ _ hk => hk)
    (fun x id plan hx hp htop hs => by
      obtain ⟨ps, hf⟩ := finding_of_search htop hs
      exact hp.carryOut hx (hf.sound hx.grounded)) h).2

theorem Reachable.lineage (h : d.Reachable) : d.Lineage := by
  refine h.induction_of_changes ?_ (fun _ hx => hx.of_merges fun _ _ hk => hk)
    (fun _ _ _ _ hx => hx.of_merges fun _ _ hk => hk) ?_ ?_ fun _ hs hx => hx.process hs
  · exact ⟨fun _ _ _ _ h₁ => (by cases h₁), fun _ _ _ _ h₁ => (by cases h₁)⟩
  · exact fun d id hd hdet hx => hx.of_merges (hd.sound.dropCluster hdet).2.merges
  · intro d id p hd _ hx
    refine hx.of_merges fun k m hk => ?_
    have hk' := (hd.sound.reroot id).2.merges k m hk
    rwa [merges_withRootMark] at hk'

/-! ### Looking up a dependency -/

theorem mem_descendants_of_mem {reached : List ClusterId} (h : id ∈ reached) (ms : List Merge) :
    id ∈ descendants reached ms := by
  induction ms generalizing reached with
  | nil => exact h
  | cons m rest ih =>
    rw [descendants_cons]
    split
    · exact ih (List.mem_append_left _ h)
    · exact ih h

/-- What the walk reaches was computed from where it started. -/
theorem leadsTo_of_mem_descendants {reached : List ClusterId} {ms : List Merge}
    (hms : ∀ m ∈ ms, m ∈ d.merges.values) (h : id ∈ descendants reached ms) :
    ∃ s ∈ reached, d.LeadsTo s id := by
  induction ms generalizing reached with
  | nil => exact ⟨id, h, .refl⟩
  | cons m rest ih =>
    have hrest : ∀ m ∈ rest, m ∈ d.merges.values := fun m' hm' =>
      hms m' (List.mem_cons_of_mem _ hm')
    rw [descendants_cons] at h
    split at h
    · rename_i hany
      -- The merge takes something that was reached, so its output joins the front.
      obtain ⟨s, hs, hlead⟩ := ih hrest h
      rcases List.mem_append.1 hs with hs | hs
      · exact ⟨s, hs, hlead⟩
      · rw [List.mem_singleton.1 hs] at hlead
        obtain ⟨a, ha, har⟩ := List.any_eq_true.1 hany
        obtain ⟨k, hk⟩ := Registry.mem_values_iff.1 (hms m List.mem_cons_self)
        exact ⟨a, of_decide_eq_true har, .head ⟨k, m, hk, ha, rfl⟩ hlead⟩
    · exact ih hrest h

theorem Lineage.pairwise_values (h : d.Lineage) :
    d.merges.values.Pairwise fun m₁ m₂ => m₁.output.serial < m₂.output.serial := by
  have hkeys : (d.merges.entries.map Prod.fst).Pairwise fun j k => j.serial < k.serial :=
    d.merges.sorted
  refine List.pairwise_map.2 ((List.pairwise_map.1 hkeys).imp_of_mem fun {e₁ e₂} h₁ h₂ hlt => ?_)
  exact h.aged e₁.1 e₂.1 e₁.2 e₂.2 (Registry.find?_eq_some.2 h₁) (Registry.find?_eq_some.2 h₂) hlt

/-- The walk through the merges misses nothing. -/
theorem Lineage.mem_descendants (h : d.Lineage) (hg : d.Grounded) (hab : d.LeadsTo a b) :
    b ∈ descendants [a] d.merges.values := by
  induction hab with
  | refl => exact mem_descendants_of_mem (List.mem_singleton_self a) _
  | @tail b c _ hstep ih =>
    obtain ⟨k, m, hk, hin, rfl⟩ := hstep
    obtain ⟨pre, post, hsplit⟩ := List.append_of_mem (Registry.mem_values_iff.2 ⟨k, hk⟩)
    -- The merge and those after it have younger outputs than `b`, so the walk has met `b` before.
    have hyoung := (hg.merge k m hk).younger b hin
    have hpost : ∀ m' ∈ m :: post, m'.output ≠ b := by
      have hpair := h.pairwise_values
      rw [hsplit] at hpair
      have hlater := (List.pairwise_cons.1 (List.pairwise_append.1 hpair).2.1).1
      intro m' hm' he
      rcases List.mem_cons.1 hm' with rfl | hm'
      · rw [he] at hyoung
        exact Nat.lt_irrefl _ hyoung
      · have hlt := hlater m' hm'
        rw [he] at hlt
        omega
    rw [hsplit, descendants_append] at ih ⊢
    rw [mem_descendants_of_ne hpost] at ih
    rw [descendants_cons, if_pos (List.any_eq_true.2 ⟨b, hin, decide_eq_true ih⟩)]
    exact mem_descendants_of_mem (List.mem_append_right _ (List.mem_singleton_self _)) _

/-- The look-up of dependencies is exact. -/
theorem Lineage.dependsOn_iff (h : d.Lineage) (hg : d.Grounded) :
    d.dependsOn b a = true ↔ d.LeadsTo a b := by
  unfold dependsOn
  rw [List.contains_iff_mem]
  constructor
  · intro hmem
    obtain ⟨s, hs, hlead⟩ := leadsTo_of_mem_descendants (fun _ hm => hm) hmem
    rwa [List.mem_singleton.1 hs] at hlead
  · exact h.mem_descendants hg

/-! ### What a plan adds -/

theorem merge_of_provideAll {inputs : List PlanInput} {k : MergeId} {m : Merge}
    (h : (d.provideAll inputs).2.merges.find? k = some m) :
    d.merges.find? k = some m ∨ m.rule.isDerivation = true := by
  induction inputs generalizing d with
  | nil => exact .inl h
  | cons i rest ih =>
    rw [provideAll_cons] at h
    rcases ih h with h | h
    · cases i with
      | existing id => exact .inl h
      | derived source centre arms =>
        rcases find?_addMerge.1 h with h | ⟨-, rfl⟩
        · exact .inl h
        · exact .inr rfl
    · exact .inr h

/-- A plan adds derivations and one merge that computes its output. -/
theorem merge_of_carryOut {plan : Plan} {k : MergeId} {m : Merge}
    (h : (d.carryOut plan).2.merges.find? k = some m) :
    d.merges.find? k = some m ∨ m.rule.isDerivation = true ∨ m.output = (d.carryOut plan).1 := by
  rw [carryOut_eq] at h
  rcases find?_addMerge.1 h with h | ⟨-, rfl⟩
  · exact (merge_of_provideAll h).imp_right .inl
  · exact .inr (.inr rfl)

/-- Every cluster that a plan adds is the output of a merge. -/
theorem live_of_carryOut {plan : Plan} (h : (d.carryOut plan).2.Live id) :
    d.Live id ∨ ∃ k m, (d.carryOut plan).2.merges.find? k = some m ∧ m.output = id := by
  -- One merge adds its own output only.
  have hone : ∀ (d : Decomposition) (draft : MergeDraft), (d.addMerge draft).2.Live id →
      d.Live id ∨ ∃ k m, (d.addMerge draft).2.merges.find? k = some m ∧ m.output = id := by
    intro d draft hl
    rcases live_addMerge.1 hl with hl | rfl
    · exact .inl hl
    · exact .inr ⟨_, _, find?_addMerge.2 (.inr ⟨rfl, rfl⟩), rfl⟩
  -- Each derived input comes from a merge of its own.
  have hall : ∀ (inputs : List PlanInput) (d : Decomposition), (d.provideAll inputs).2.Live id →
      d.Live id ∨ ∃ k m, (d.provideAll inputs).2.merges.find? k = some m ∧ m.output = id := by
    intro inputs
    induction inputs with
    | nil => exact fun d hl => .inl hl
    | cons i rest ih =>
      intro d hl
      rw [provideAll_cons] at hl ⊢
      rcases ih _ hl with hl | hl
      · cases i with
        | existing id => exact .inl hl
        | derived source centre arms =>
          rcases hone d _ hl with hl | ⟨k, m, hk, hout⟩
          · exact .inl hl
          · exact .inr ⟨k, m, (partOf_provideAll rest _).merges k m hk, hout⟩
      · exact .inr hl
  rw [carryOut_eq] at h ⊢
  rcases hone _ _ h with hl | hl
  · rcases hall _ d hl with hl | ⟨k, m, hk, hout⟩
    · exact .inl hl
    · exact .inr ⟨k, m, (partOf_addMerge _ _).merges k m hk, hout⟩
  · exact .inr hl

theorem leadsTo_provideAll {inputs : List PlanInput} {i : PlanInput} (hi : i ∈ inputs) :
    ∃ j ∈ (d.provideAll inputs).1, (d.provideAll inputs).2.LeadsTo i.source j := by
  induction inputs generalizing d with
  | nil => cases hi
  | cons i' rest ih =>
    rw [provideAll_cons]
    rcases List.mem_cons.1 hi with rfl | hi
    · refine ⟨_, List.mem_cons_self, LeadsTo.mono (d := (d.provide i).2) ?_
        (partOf_provideAll rest _).merges⟩
      cases i with
      | existing id => exact .refl
      | derived source centre arms =>
        exact .single ⟨_, _, find?_addMerge.2 (.inr ⟨rfl, rfl⟩), List.mem_singleton_self _, rfl⟩
    · obtain ⟨j, hj, hlead⟩ := ih hi
      exact ⟨j, List.mem_cons_of_mem _ hj, hlead⟩

/-- The output of a plan is computed from all that its inputs are taken or derived from. -/
theorem leadsTo_carryOut {plan : Plan} {i : PlanInput} (hi : i ∈ plan.inputs) :
    (d.carryOut plan).2.LeadsTo i.source (d.carryOut plan).1 := by
  obtain ⟨j, hj, hlead⟩ := leadsTo_provideAll (d := d) hi
  rw [carryOut_eq]
  refine (hlead.mono (partOf_addMerge _ _).merges).tail ?_
  exact ⟨_, _, find?_addMerge.2 (.inr ⟨rfl, rfl⟩), hj, rfl⟩

theorem source_withArms (h : PlacedHedgehog) (arms : NameSet) :
    (withArms h arms).source = h.id := by
  unfold withArms
  split <;> rfl

/-- Whoever takes part in a merge is the source of an input. -/
theorem Finding.exists_input {ps : List ClusterId} {plan : Plan} (h : Finding d ps plan)
    (hid : id ∈ ps) : ∃ i ∈ plan.inputs, i.source = id := by
  have hswap : ∀ {x y : ClusterId}, id ∈ [x, y] → id ∈ [y, x] :=
    fun hmem => (List.Perm.swap _ _ _).mem_iff.1 hmem
  refine List.mem_map.1 ?_
  -- The inputs of each rule name the participants, in this order or the other.
  cases h with
  | absorb _ _ h =>
    obtain ⟨-, -, -, -, rfl⟩ := absorb?_eq_some h
    exact hid
  | balloonRigid _ _ h =>
    obtain ⟨-, -, -, rfl⟩ := balloonRigid?_eq_some h
    exact hid
  | pointRigid _ _ _ _ _ h =>
    obtain ⟨-, ⟨-, rfl⟩ | ⟨-, -, rfl⟩⟩ := pointRigid?_eq_some h
    · exact hswap hid
    · exact hid
  | rigidRigid _ _ _ _ h =>
    obtain ⟨-, -, rfl⟩ := rigidRigid?_eq_some h
    exact hid
  | balloons _ _ _ _ h =>
    obtain ⟨-, -, rfl⟩ := balloons?_eq_some h
    exact hid
  | hedgehogs _ _ _ h =>
    obtain ⟨arms, a, -, -, -, rfl⟩ := hedgehogs?_eq_some h
    exact hid
  | threeRigids _ _ _ _ _ _ h =>
    obtain ⟨-, -, -, p, q, r, -, -, -, -, -, -, rfl⟩ := threeRigids?_eq_some h
    exact hid
  | angleBetween | angleBeside =>
    rw [joinByAngle, List.map_cons, List.map_cons, List.map_cons, source_withArms]
    exact hid
  | extend _ _ _ _ h =>
    obtain ⟨-, -, -, -, rfl⟩ := extendHedgehog?_eq_some h
    exact hswap hid
  | triangle _ _ _ _ _ h =>
    obtain ⟨-, rfl⟩ := triangleOver?_eq_some h
    rw [List.map_cons, List.map_cons, source_withArms, source_withArms]
    exact hid

end Decomposition

end PlanarSketch
