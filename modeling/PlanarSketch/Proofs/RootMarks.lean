/-
Root marks.

A merge passes the mark of a rigid input on to a rigid output when it is
carried out, and later nothing but the choice of a root touches a mark.  That
the marks are right afterwards is owed to the merges that are undone: whatever
was computed from the old root goes, and with it every old mark.

* `Passes`, `Inherits`: the chains of rigids along which marks are passed on;
* `Sound.live_rebuildDependents`: undoing the merges that read a cluster takes
  away just what was computed from it, and the derived hedgehogs that nothing
  needs then;
* `Marked`: the law of marks, cluster by cluster, after any operation
  (`Reachable.marked`);
* `Marked.holdsRoot_iff`, `Sound.existsUnique_marked`: so the marked clusters
  are those at the ends of chains from the root, and one of them is on the top
  level;
* `Solver.root_marks_run`, `Solver.setRoot_effect`: both for all runs, and what
  a choice of a root comes to.
-/
import Mathlib.Logic.ExistsUnique
import PlanarSketch.Proofs.Frontier
import PlanarSketch.Proofs.Wiring

namespace PlanarSketch

namespace Decomposition

variable {d d' : Decomposition} {a b c id r : ClusterId}

/-! ### Chains of rigids -/

/-- The cluster is a rigid in use. -/
def RigidAt (d : Decomposition) (id : ClusterId) : Prop := ∃ p, d.cluster? id = some (.rigid p)

/-- Some merge reads the rigid `a` and has the rigid `b` as its output. -/
def Passes (d : Decomposition) (a b : ClusterId) : Prop := d.RigidAt a ∧ d.RigidAt b ∧ d.Feeds a b

/-- A chain of rigids leads from `r` to `c`, each the output of a merge that reads the one
before. -/
def Inherits (d : Decomposition) (r c : ClusterId) : Prop :=
  d.RigidAt r ∧ Relation.ReflTransGen d.Passes r c

/-- `b` was computed from `a`, directly or not. -/
abbrev Begets (d : Decomposition) : ClusterId → ClusterId → Prop := Relation.TransGen d.Feeds

theorem RigidAt.live (h : d.RigidAt id) : d.Live id := by
  obtain ⟨p, hp⟩ := h
  exact live_of_cluster? hp

theorem rigidAt_congr (h : d'.clusters.find? id = d.clusters.find? id) :
    d'.RigidAt id ↔ d.RigidAt id := by
  simp only [RigidAt, cluster?, h]

theorem holdsRoot_congr (h : d'.clusters.find? id = d.clusters.find? id) :
    d'.holdsRoot id = d.holdsRoot id := by
  simp only [holdsRoot, h]

theorem live_of_holdsRoot (h : d.holdsRoot id = true) : d.Live id := by
  cases hn : d.clusters.find? id with
  | none =>
    rw [holdsRoot, hn] at h
    cases h
  | some n => exact Registry.mem_keys_of_find? hn

/-- What is computed from a cluster is younger. -/
theorem Grounded.serial_lt_of_begets (hg : d.Grounded) (h : d.Begets a b) :
    a.serial < b.serial := by
  induction h with
  | single hstep => exact hg.serial_lt_of_feeds hstep
  | tail _ hstep ih => exact Nat.lt_trans ih (hg.serial_lt_of_feeds hstep)

theorem Inherits.begets (h : d.Inherits a b) (hne : a ≠ b) : d.Begets a b := by
  rcases Relation.reflTransGen_iff_eq_or_transGen.1 h.2 with he | ht
  · exact absurd he.symm hne
  · exact ht.lift (fun x => x) fun _ _ hp => hp.2.2

/-! ### Undoing what reads a cluster -/

/-- What is left when every merge that reads a cluster has been undone. -/
theorem Sound.unwinding_dropConsumers (h : d.Sound) (hf : d.Lineage) (id : ClusterId) :
    Unwinding d Key.null (fun m => d.Begets id m.output) [] (d.dropConsumers id) := by
  have hstart : Unwinding d Key.null (fun m => d.Begets id m.output)
      ((d.consumers id).map .undo) d := by
    refine ⟨fun _ _ hk => hk, fun k m hk hn => absurd (hk.symm.trans hn) (by simp),
      fun k m hk hn => absurd (hk.symm.trans hn) (by simp), fun k m hk hkm => ?_,
      fun i hl hn => absurd hl hn, fun i hi => by simp at hi⟩
    obtain ⟨j, hj, he⟩ := List.mem_map.1 hk
    obtain rfl := Chore.undo.inj he
    obtain ⟨m', hm', hin⟩ := mem_consumers_iff.1 hj
    obtain rfl := Option.some_inj.1 (hkm.symm.trans hm')
    exact .inl (.single ⟨j, m, hkm, hin, rfl⟩)
  refine (unwinds_dropConsumers d id).induction (I := Unwinding d Key.null _)
    (fun c new rest d₁ d₂ hc hI => hI.step h.grounded hf (fun k m j m' _ ht hj hin => ?_) hc) hstart
  exact ht.tail ⟨j, m', hj, hin, rfl⟩

/-- A merge whose output is still there is still there. -/
theorem Sound.find?_dropConsumers (h : d.Sound) (hf : d.Lineage) {k : MergeId} {m : Merge}
    (hk : d.merges.find? k = some m) (hl : (d.dropConsumers id).Live m.output) :
    (d.dropConsumers id).merges.find? k = some m := by
  cases hn : (d.dropConsumers id).merges.find? k with
  | none =>
    have hmem := (h.unwinding_dropConsumers hf id).outputs k m hk hn hl
    cases hmem
  | some m' => exact congrArg some (Option.some_inj.1 (hk.symm.trans
      ((h.dropConsumers id).2.1.merges k m' hn))).symm

/-- What was computed from the cluster is gone. -/
theorem Sound.not_live_dropConsumers (h : d.Sound) (hf : d.Lineage)
    (hb : d.Begets id b) : ¬(d.dropConsumers id).Live b := by
  obtain ⟨hs, -, hread⟩ := h.dropConsumers id
  induction hb with
  | single hstep =>
    obtain ⟨k, m, hk, hin, rfl⟩ := hstep
    exact fun hl => hread k m (h.find?_dropConsumers hf hk hl) hin
  | tail _ hstep ih =>
    obtain ⟨k, m, hk, hin, rfl⟩ := hstep
    intro hl
    exact ih ((hs.grounded.merge k m (h.find?_dropConsumers hf hk hl)).inputs _ hin)

/-- What was neither computed from the cluster nor derived is still there. -/
theorem Sound.live_dropConsumers (h : d.Sound) (hf : d.Lineage) (hb : d.Live b)
    (hder : ∀ k m, d.merges.find? k = some m → m.rule.isDerivation = true → m.output ≠ b)
    (hnot : ¬d.Begets id b) : (d.dropConsumers id).Live b := by
  have hu := h.unwinding_dropConsumers hf id
  obtain ⟨hs, hrem, -⟩ := h.dropConsumers id
  refine Classical.not_not.1 fun hl => ?_
  rcases hu.computed b hb hl with rfl | ⟨k, m, hk, rfl⟩
  · exact d.clusters.null_not_mem_keys hb
  · cases hn : (d.dropConsumers id).merges.find? k with
    | none => exact (hu.spared k m hk hn).elim hnot fun hr => hder k m hk hr rfl
    | some m' =>
      obtain rfl := Option.some_inj.1 (hk.symm.trans (hrem.merges k m' hn))
      exact hl (hs.grounded.merge k m hn).output

theorem live_rebuildDependents_iff (hid : d.Live id) :
    (d.rebuildDependents id).Live b ↔ (d.dropConsumers id).Live b := by
  unfold rebuildDependents
  rw [if_pos (Registry.contains_iff.2 hid)]
  dsimp only
  split <;> exact Iff.rfl

theorem merges_rebuildDependents (hid : d.Live id) :
    (d.rebuildDependents id).merges = (d.dropConsumers id).merges := by
  unfold rebuildDependents
  rw [if_pos (Registry.contains_iff.2 hid)]
  dsimp only
  split <;> rfl

theorem rebuildDependents_of_not_live (hid : ¬d.Live id) : d.rebuildDependents id = d := by
  unfold rebuildDependents
  rw [if_neg (mt Registry.contains_iff.1 hid)]

/-- What is not in use feeds nothing. -/
theorem Grounded.not_begets (hg : d.Grounded) (hid : ¬d.Live id) : ¬d.Begets id b := by
  intro ht
  obtain ⟨e, ⟨k, m, hk, hin, -⟩, -⟩ := Relation.TransGen.head'_iff.1 ht
  exact hid ((hg.merge k m hk).inputs id hin)

/-- Undoing the merges that read a cluster takes away what was computed from it.  Apart from derived
hedgehogs it takes nothing else. -/
theorem Sound.live_rebuildDependents (h : d.Sound) (hf : d.Lineage) (hb : d.Live b)
    (hder : ∀ k m, d.merges.find? k = some m → m.rule.isDerivation = true → m.output ≠ b) :
    (d.rebuildDependents id).Live b ↔ ¬d.Begets id b := by
  by_cases hid : d.Live id
  · rw [live_rebuildDependents_iff hid]
    exact ⟨fun hl ht => h.not_live_dropConsumers hf ht hl, h.live_dropConsumers hf hb hder⟩
  · rw [rebuildDependents_of_not_live hid]
    exact iff_of_true hb (h.grounded.not_begets hid)

theorem Sound.not_live_rebuildDependents (h : d.Sound) (hf : d.Lineage)
    (hb : d.Begets id b) : ¬(d.rebuildDependents id).Live b := by
  have hid : d.Live id := Classical.not_not.1 fun hid => h.grounded.not_begets hid hb
  rw [live_rebuildDependents_iff hid]
  exact h.not_live_dropConsumers hf hb

/-- Nothing reads the cluster afterwards. -/
theorem Sound.unread_rebuildDependents (h : d.Sound) (id : ClusterId) :
    ¬(d.rebuildDependents id).Feeds id b := by
  rintro ⟨k, m, hk, hin, -⟩
  by_cases hid : d.Live id
  · rw [merges_rebuildDependents hid] at hk
    exact (h.dropConsumers id).2.2 k m hk hin
  · rw [rebuildDependents_of_not_live hid] at hk
    exact hid ((h.grounded.merge k m hk).inputs id hin)

/-! ### The law of marks -/

/-- The cluster is marked if and only if it is the root or a merge passed the mark on to it. -/
def MarkLaw (d : Decomposition) (c : ClusterId) : Prop :=
  d.holdsRoot c = true ↔ d.root = some c ∨ ∃ a, d.Passes a c ∧ d.holdsRoot a = true

/-- The root is a rigid, every mark is as the law has it, and what is derived is never a rigid. -/
structure Marked (d : Decomposition) : Prop where
  root : ∀ r, d.root = some r → d.RigidAt r
  mark : ∀ c, d.Live c → d.MarkLaw c
  derived : ∀ k m, d.merges.find? k = some m → m.rule.isDerivation = true → ¬d.RigidAt m.output

/-- The law for a cluster depends on the cluster, on what feeds it and on the root. -/
theorem MarkLaw.congr (h : d.MarkLaw c) (hroot : d'.root = some c ↔ d.root = some c)
    (hc : d'.clusters.find? c = d.clusters.find? c) (hfeed : ∀ a, d'.Feeds a c ↔ d.Feeds a c)
    (ha : ∀ a, d.Feeds a c → d'.clusters.find? a = d.clusters.find? a) : d'.MarkLaw c := by
  unfold MarkLaw at h ⊢
  rw [holdsRoot_congr hc, h, hroot]
  refine or_congr_right (exists_congr fun a => ?_)
  unfold Passes
  rw [hfeed, rigidAt_congr hc]
  constructor
  · rintro ⟨⟨hra, hrc, hf⟩, hm⟩
    exact ⟨⟨(rigidAt_congr (ha a hf)).2 hra, hrc, hf⟩, by rwa [holdsRoot_congr (ha a hf)]⟩
  · rintro ⟨⟨hra, hrc, hf⟩, hm⟩
    exact ⟨⟨(rigidAt_congr (ha a hf)).1 hra, hrc, hf⟩, by rwa [← holdsRoot_congr (ha a hf)]⟩

theorem Marked.congr (h : d.Marked) (hc : d'.clusters = d.clusters) (hm : d'.merges = d.merges)
    (hr : d'.root = d.root) : d'.Marked := by
  have hfind : ∀ id, d'.clusters.find? id = d.clusters.find? id := fun id => by rw [hc]
  refine ⟨fun r hroot => ?_, fun c hl => ?_, fun k m hk hder => ?_⟩
  · rw [rigidAt_congr (hfind r)]
    exact h.root r (hr ▸ hroot)
  · have hl' : d.Live c := by
      unfold Live at hl
      rwa [hc] at hl
    exact (h.mark c hl').congr (by rw [hr]) (hfind c) (fun a => by unfold Feeds; rw [hm])
      fun a _ => hfind a
  · rw [rigidAt_congr (hfind _)]
    exact h.derived k m (hm ▸ hk) hder

theorem Remnant.find?_eq (h : d'.Remnant d) (hl : d'.Live id) :
    d'.clusters.find? id = d.clusters.find? id := by
  obtain ⟨n, hn⟩ := Registry.mem_keys_iff.1 hl
  rw [hn, h.clusters id n hn]

theorem PartOf.find?_eq (h : d.PartOf d') (hl : d.Live id) :
    d'.clusters.find? id = d.clusters.find? id := by
  obtain ⟨n, hn⟩ := Registry.mem_keys_iff.1 hl
  rw [hn, h.clusters id n hn]

/-- Marks stay right when clusters go, as long as every merge stays whose output does. -/
theorem Marked.remnant (h : d.Marked) (hg : d'.Grounded) (hrem : d'.Remnant d) (hs : d.Swept d')
    (hm : ∀ k m, d.merges.find? k = some m → d'.Live m.output → d'.merges.find? k = some m) :
    d'.Marked := by
  have hrooted : d'.Rooted := hs.rooted fun r hr => (h.root r hr).live
  refine ⟨fun r hr => ?_, fun c hl => ?_, fun k m hk hder => ?_⟩
  · have hl := hrooted r hr
    rw [rigidAt_congr (hrem.find?_eq hl)]
    exact h.root r ((hs.root r hl).1 hr)
  · refine (h.mark c (hrem.live hl)).congr (hs.root c hl) (hrem.find?_eq hl) (fun a => ?_) ?_
    · constructor
      · rintro ⟨k, m, hk, hin, rfl⟩
        exact ⟨k, m, hrem.merges k m hk, hin, rfl⟩
      · rintro ⟨k, m, hk, hin, rfl⟩
        exact ⟨k, m, hm k m hk hl, hin, rfl⟩
    · rintro a ⟨k, m, hk, hin, rfl⟩
      exact hrem.find?_eq ((hg.merge k m (hm k m hk hl)).inputs a hin)
  · rw [rigidAt_congr (hrem.find?_eq (hg.merge k m hk).output)]
    exact h.derived k m (hrem.merges k m hk) hder

/-- For an old cluster nothing changes when a decomposition grows. -/
theorem MarkLaw.partOf (h : d.MarkLaw c) (hp : d.PartOf d') (hg : d.Grounded) (hl : d.Live c) :
    d'.MarkLaw c := by
  refine h.congr (by rw [hp.root]) (hp.find?_eq hl) (fun a => ?_) ?_
  · constructor
    · rintro ⟨k, m, hk, hin, rfl⟩
      exact ⟨k, m, hp.find?_of_output hk hl, hin, rfl⟩
    · rintro ⟨k, m, hk, hin, rfl⟩
      exact ⟨k, m, hp.merges k m hk, hin, rfl⟩
  · rintro a ⟨k, m, hk, hin, -⟩
    exact hp.find?_eq ((hg.merge k m hk).inputs a hin)

theorem holdsRoot_insertCluster (node : ClusterNode) :
    (d.insertCluster node).2.holdsRoot d.clusters.nextKey = node.holdsRoot := by
  show (((d.clusters.insert node).find? d.clusters.nextKey).map _).getD false = _
  rw [Registry.find?_insert, if_pos rfl]
  rfl

theorem Marked.receive (h : d.Marked) (hg : d.Grounded) (x : Cluster) :
    (d.receive x).2.Marked := by
  have hp := partOf_receive d x
  refine ⟨fun r hr => ?_, fun c hl => ?_, fun k m hk hder => ?_⟩
  · have hold := h.root r hr
    rwa [rigidAt_congr (hp.find?_eq hold.live)]
  · rcases (live_insertCluster ⟨x, false, false⟩).1 hl with hl | rfl
    · exact (h.mark c hl).partOf hp hg hl
    · -- Nothing is known about a new cluster, and no merge has it as its output.
      have hmark : (d.receive x).2.holdsRoot d.clusters.nextKey = false :=
        holdsRoot_insertCluster ⟨x, false, false⟩
      refine iff_of_false (by simp [hmark]) ?_
      rintro (hr | ⟨a, ⟨-, -, k, m, hk, -, hout⟩, -⟩)
      · exact not_live_nextKey (h.root _ hr).live
      · exact not_live_nextKey (hout ▸ (hg.merge k m hk).output)
  · rw [rigidAt_congr (hp.find?_eq (hg.merge k m hk).output)]
    exact h.derived k m hk hder

theorem someHoldsRoot_iff {inputs : List ClusterId} :
    d.someHoldsRoot inputs = true ↔ ∃ a ∈ inputs, d.RigidAt a ∧ d.holdsRoot a = true := by
  simp only [someHoldsRoot, List.any_eq_true, Bool.and_eq_true, Option.any_eq_true, RigidAt,
    Cluster.isRigid_iff, Cluster.kind_eq_rigid_iff]
  constructor
  · rintro ⟨a, ha, hm, c, hc, p, rfl⟩
    exact ⟨a, ha, ⟨p, hc⟩, hm⟩
  · rintro ⟨a, ha, ⟨p, hp⟩, hm⟩
    exact ⟨a, ha, hm, _, hp, p, rfl⟩

/-- A merge marks its output as the law has it. -/
theorem Marked.addMerge {draft : MergeDraft} (h : d.Marked) (hg : d.Grounded)
    (hin : ∀ id ∈ draft.inputs, d.Live id)
    (hder : draft.rule.isDerivation = true → draft.output.isRigid = false) :
    (d.addMerge draft).2.Marked := by
  have hp := partOf_addMerge d draft
  have hout : (d.addMerge draft).2.cluster? d.clusters.nextKey = some draft.output :=
    cluster?_addMerge.2 (.inr ⟨rfl, rfl⟩)
  have hrigid : (d.addMerge draft).2.RigidAt d.clusters.nextKey ↔ draft.output.isRigid = true := by
    rw [RigidAt, hout, Cluster.isRigid_iff, Cluster.kind_eq_rigid_iff]
    simp only [Option.some_inj]
  refine ⟨fun r hr => ?_, fun c hl => ?_, fun k m hk hr => ?_⟩
  · have hold := h.root r (hp.root ▸ hr)
    rwa [rigidAt_congr (hp.find?_eq hold.live)]
  · rcases live_addMerge.1 hl with hl | rfl
    · -- The law of an old cluster speaks of older ones, and these are unchanged.
      exact (h.mark c hl).partOf hp hg hl
    · -- The output bears a mark if it is a rigid and some input bears one.
      have hmark : (d.addMerge draft).2.holdsRoot d.clusters.nextKey =
          (draft.output.isRigid && d.someHoldsRoot draft.inputs) :=
        holdsRoot_insertCluster (d.outputFor draft)
      have hfeed : ∀ a, (d.addMerge draft).2.Feeds a d.clusters.nextKey ↔ a ∈ draft.inputs := by
        intro a
        constructor
        · rintro ⟨k, m, hk, hmem, hm⟩
          rcases find?_addMerge.1 hk with hk | ⟨-, rfl⟩
          · exact absurd (hm ▸ (hg.merge k m hk).output) not_live_nextKey
          · exact hmem
        · exact fun ha => ⟨_, _, find?_addMerge.2 (.inr ⟨rfl, rfl⟩), ha, rfl⟩
      -- The new key is not the root, which was live before.
      have hroot : (d.addMerge draft).2.root ≠ some d.clusters.nextKey := by
        rw [hp.root]
        exact fun hr => not_live_nextKey (h.root _ hr).live
      unfold MarkLaw Passes
      rw [hmark, Bool.and_eq_true, someHoldsRoot_iff, hrigid, or_iff_right hroot]
      simp only [hfeed]
      constructor
      · rintro ⟨ho, a, ha, hra, hma⟩
        have hfind := hp.find?_eq (hin a ha)
        exact ⟨a, ⟨(rigidAt_congr hfind).2 hra, ho, ha⟩, by rwa [holdsRoot_congr hfind]⟩
      · rintro ⟨a, ⟨hra, ho, ha⟩, hma⟩
        have hfind := hp.find?_eq (hin a ha)
        exact ⟨ho, a, ha, (rigidAt_congr hfind).1 hra, by rwa [← holdsRoot_congr hfind]⟩
  · rcases find?_addMerge.1 hk with hk | ⟨-, rfl⟩
    · rw [rigidAt_congr (hp.find?_eq (hg.merge k m hk).output)]
      exact h.derived k m hk hr
    · -- A merge that derives does not make a rigid.
      intro hrig
      have htrue := hrigid.1 hrig
      rw [hder hr] at htrue
      cases htrue

theorem Marked.carryOut {plan : Plan} (h : d.Marked) (hg : d.Grounded) (hp : plan.Sound d) :
    (d.carryOut plan).2.Marked :=
  hg.carryOut_induction hp (fun _ _ hx hf hm => hm.addMerge hx hf.inputs hf.derived) h

theorem Marked.process (h : d.Marked) (hs : d.Sound) : d.process.Marked :=
  (hs.process_of_search (P := Marked) (fun _ _ hm => hm.congr rfl rfl rfl)
    (fun _ _ _ hx hm htop hfound => by
      obtain ⟨ps, hf⟩ := finding_of_search htop hfound
      exact hm.carryOut hx.grounded (hf.sound hx.grounded)) h).2

/-! ### Marked clusters -/

/-- The marked clusters are those that inherit from the root. -/
theorem Marked.holdsRoot_iff (h : d.Marked) (hg : d.Grounded) (hc : d.Live c) :
    d.holdsRoot c = true ↔ ∃ r, d.root = some r ∧ d.Inherits r c := by
  constructor
  · -- The inputs of the merge that computed a cluster are older than it.
    induction hn : c.serial using Nat.strongRecOn generalizing c with
    | ind n ih =>
      intro hmark
      rcases (h.mark c hc).1 hmark with hr | ⟨a, hp, hma⟩
      · exact ⟨c, hr, h.root c hr, .refl⟩
      · have hlt := hg.serial_lt_of_feeds hp.2.2
        obtain ⟨r, hr, hrig, hchain⟩ := ih a.serial (hn ▸ hlt) hp.1.live rfl hma
        exact ⟨r, hr, hrig, hchain.tail hp⟩
  · rintro ⟨r, hr, -, hchain⟩
    clear hc
    induction hchain with
    | refl => exact (h.mark r (h.root r hr).live).2 (.inl hr)
    | tail _ hp ih => exact (h.mark _ hp.2.1.live).2 (.inr ⟨_, hp, ih⟩)

theorem Marked.rigidAt (h : d.Marked) (hm : d.holdsRoot c = true) : d.RigidAt c := by
  rcases (h.mark c (live_of_holdsRoot hm)).1 hm with hr | ⟨a, hp, -⟩
  · exact h.root c hr
  · exact hp.2.1

/-- A merge that passes the mark on is no derivation, so it consumes the rigid. -/
theorem Marked.consumed_of_passes (h : d.Marked) (hg : d.Grounded) (hp : d.Passes a b) :
    ∃ k m, d.merges.find? k = some m ∧ a ∈ m.consumed ∧ m.output = b := by
  obtain ⟨-, hb, k, m, hk, hin, rfl⟩ := hp
  have hder : m.rule.isDerivation = false := by
    rw [← Bool.not_eq_true]
    exact fun hr => h.derived k m hk hr hb
  refine ⟨k, m, hk, ?_, rfl⟩
  rw [(hg.merge k m hk).consumption, hder]
  exact hin

/-- At most one cluster on the top level is marked: a rigid passes its mark on to one cluster at
most. -/
theorem Sound.eq_of_marked (h : d.Sound) (hm : d.Marked) (ha : a ∈ d.topLevel)
    (hb : b ∈ d.topLevel) (hma : d.holdsRoot a = true) (hmb : d.holdsRoot b = true) : a = b := by
  have hg := h.grounded
  obtain ⟨r, hr, -, hra⟩ := (hm.holdsRoot_iff hg (hg.top a ha)).1 hma
  obtain ⟨r', hr', -, hrb⟩ := (hm.holdsRoot_iff hg (hg.top b hb)).1 hmb
  obtain rfl := Option.some_inj.1 (hr.symm.trans hr')
  exact h.eq_of_common_source (fun _ _ hp => hm.consumed_of_passes hg hp) ha hb hra hrb

/-- Above every marked cluster there is a marked one on the top level. -/
theorem Sound.exists_marked_above (h : d.Sound) (hl : d.Lossless) (hm : d.Marked)
    (hc : d.holdsRoot c = true) : ∃ t ∈ d.topLevel, d.holdsRoot t = true := by
  refine h.exists_topLevel (fun _ => live_of_holdsRoot) ?_ hc
  intro k m x hk hmem hx
  have hs := h.grounded.merge k m hk
  obtain ⟨hr, hin⟩ := hs.mem_inputs hmem
  obtain ⟨p, hp⟩ := hm.rigidAt hx
  obtain ⟨o, ho⟩ := live_iff.1 hs.output
  -- The output knows the distances that the rigid knows, so it is a rigid too.
  have hrig := ((hl k m hk hr).weaker o x _ ho hin hp).isRigid (h.grounded.valid x _ hp) rfl
  obtain ⟨q, rfl⟩ := Cluster.kind_eq_rigid_iff.1 (Cluster.isRigid_iff.1 hrig)
  exact (hm.mark _ hs.output).2 (.inr ⟨x, ⟨⟨p, hp⟩, ⟨q, ho⟩, k, m, hk, hin, rfl⟩, hx⟩)

/-! ### Choosing a root -/

theorem holdsRoot_markRoot (mark : Bool) (o : ClusterId) (hc : d.Live c) :
    (d.markRoot mark o).holdsRoot c = if o = c then mark else d.holdsRoot c := by
  obtain ⟨n, hn⟩ := Registry.mem_keys_iff.1 hc
  show (((d.clusters.modify o _).find? c).map ClusterNode.holdsRoot).getD false = _
  rw [Registry.find?_modify]
  by_cases he : o = c
  · rw [if_pos he, if_pos he, hn]
    rfl
  · rw [if_neg he, if_neg he]
    rfl

theorem rigidAt_withRootMark : (d.withRootMark r).RigidAt id ↔ d.RigidAt id := by
  simp only [RigidAt, cluster?_withRootMark]

theorem feeds_withRootMark : (d.withRootMark r).Feeds a b ↔ d.Feeds a b := by
  unfold Feeds
  rw [merges_withRootMark]

theorem begets_withRootMark : (d.withRootMark r).Begets a b ↔ d.Begets a b :=
  ⟨fun h => h.lift (fun x => x) fun _ _ => feeds_withRootMark.1,
    fun h => h.lift (fun x => x) fun _ _ => feeds_withRootMark.2⟩

/-- The mark has moved to the new root. -/
theorem holdsRoot_withRootMark (hc : d.Live c) : (d.withRootMark id).holdsRoot c = true ↔
    c = id ∨ d.root ≠ some c ∧ d.holdsRoot c = true := by
  unfold withRootMark
  cases hold : d.root.filter (· ≠ id) with
  | none =>
    rw [Option.elim_none, holdsRoot_markRoot _ _ (by exact hc)]
    show (if id = c then true else d.holdsRoot c) = true ↔ _
    by_cases he : id = c
    · simp [he]
    · have hne : d.root ≠ some c := by
        intro hr
        rw [hr] at hold
        simp [Ne.symm he] at hold
      simp [he, Ne.symm he, hne]
  | some old =>
    obtain ⟨hr, hne⟩ := Option.filter_eq_some_iff.1 hold
    have hne : old ≠ id := by simpa using hne
    -- The old root loses its mark and the new one gets it.
    have hlive : ({ d.markRoot false old with root := some id } : Decomposition).Live c :=
      (live_congr (cluster?_markRoot false old)).2 hc
    rw [Option.elim_some, holdsRoot_markRoot _ _ hlive]
    show (if id = c then true else (d.markRoot false old).holdsRoot c) = true ↔ _
    rw [holdsRoot_markRoot _ _ hc, hr]
    by_cases he : id = c
    · simp [he]
    · by_cases ho : old = c
      · simp [he, Ne.symm he, ho]
      · simp [he, Ne.symm he, ho]

theorem Lineage.withRootMark (hf : d.Lineage) (id : ClusterId) : (d.withRootMark id).Lineage :=
  hf.of_merges fun k m hk => by rwa [merges_withRootMark] at hk

/-- Whatever was computed from the old root is gone. -/
theorem Sound.not_live_reroot (h : d.Sound) (hf : d.Lineage) {old : ClusterId}
    (hold : d.root = some old) (hb : d.Begets old c) : ¬(d.reroot id).Live c := by
  have hm := h.withRootMark id
  have hb' := begets_withRootMark (r := id).2 hb
  rw [reroot_eq]
  cases ho : d.root.filter (· ≠ id) with
  | none =>
    have he : old = id := by simpa [hold] using ho
    rw [he] at hb'
    exact hm.not_live_rebuildDependents (hf.withRootMark id) hb'
  | some o =>
    obtain ⟨hr, -⟩ := Option.filter_eq_some_iff.1 ho
    obtain rfl := Option.some_inj.1 (hold.symm.trans hr)
    obtain ⟨h₁, r₁⟩ := hm.rebuildDependents old
    obtain ⟨-, r₂⟩ := h₁.rebuildDependents id
    exact fun hl => hm.not_live_rebuildDependents (hf.withRootMark id) hb' (r₂.live hl)

/-- The new root is still there unless it was computed from the old one. -/
theorem Sound.live_reroot_iff (h : d.Sound) (hf : d.Lineage) (hm : d.Marked) (hid : d.RigidAt id) :
    (d.reroot id).Live id ↔ ¬∃ old, d.root = some old ∧ d.Begets old id := by
  have hmark := h.withRootMark id
  have hrig : (d.withRootMark id).RigidAt id := rigidAt_withRootMark.2 hid
  have hder : ∀ k m, (d.withRootMark id).merges.find? k = some m → m.rule.isDerivation = true →
      m.output ≠ id := by
    intro k m hk hr he
    rw [merges_withRootMark] at hk
    exact hm.derived k m hk hr (he ▸ hid)
  -- Nothing is computed from itself, so removing the dependents of `id` leaves it there.
  have hself : ∀ {x : Decomposition}, x.Sound → ¬x.Begets id id := fun hx hb =>
    Nat.lt_irrefl _ (hx.grounded.serial_lt_of_begets hb)
  rw [reroot_eq]
  cases ho : d.root.filter (· ≠ id) with
  | none =>
    refine iff_of_true ?_ ?_
    · exact (hmark.live_rebuildDependents (hf.withRootMark id) hrig.live hder).2 (hself hmark)
    · rintro ⟨old, hold, hb⟩
      have he : old = id := by simpa [hold] using ho
      exact hself h (he ▸ hb)
  | some o =>
    -- The dependents of the old root go first.
    obtain ⟨hr, -⟩ := Option.filter_eq_some_iff.1 ho
    obtain ⟨h₁, r₁⟩ := hmark.rebuildDependents o
    have hfirst : ((d.withRootMark id).rebuildDependents o).Live id ↔ ¬d.Begets o id := by
      rw [← begets_withRootMark (r := id)]
      exact hmark.live_rebuildDependents (hf.withRootMark id) hrig.live hder
    constructor
    · rintro hl ⟨old, hold, hb⟩
      obtain rfl := Option.some_inj.1 (hold.symm.trans hr)
      exact hfirst.1 ((h₁.rebuildDependents id).2.live hl) hb
    · intro hno
      have hl₁ := hfirst.2 fun hb => hno ⟨o, hr, hb⟩
      refine (h₁.live_rebuildDependents ((hf.withRootMark id).of_merges r₁.merges) hl₁ ?_).2
        (hself h₁)
      exact fun k m hk => hder k m (r₁.merges k m hk)

/-- Nothing reads the new root. -/
theorem Sound.unread_reroot (h : d.Sound) (id : ClusterId) : ¬(d.reroot id).Feeds id b := by
  have hm := h.withRootMark id
  rw [reroot_eq]
  cases d.root.filter (· ≠ id) with
  | none => exact hm.unread_rebuildDependents id
  | some o => exact (hm.rebuildDependents o).1.unread_rebuildDependents id

/-- After the merges have been undone the new root is the only marked cluster. -/
theorem Sound.holdsRoot_reroot (h : d.Sound) (hf : d.Lineage) (hm : d.Marked)
    (hc : (d.reroot id).Live c) : (d.reroot id).holdsRoot c = true ↔ c = id := by
  have hrem := (h.reroot id).2
  have hlive : d.Live c := (live_congr (cluster?_withRootMark id)).1 (hrem.live hc)
  rw [holdsRoot_congr (hrem.find?_eq hc), holdsRoot_withRootMark hlive]
  refine or_iff_left ?_
  rintro ⟨hne, hmark⟩
  -- Any other mark was passed on from the old root.
  obtain ⟨old, hold, hinh⟩ := (hm.holdsRoot_iff h.grounded hlive).1 hmark
  refine h.not_live_reroot hf hold (hinh.begets ?_) hc
  rintro rfl
  exact hne hold

theorem root_reroot (hc : (d.reroot id).Live c) : (d.reroot id).root = some c ↔ c = id := by
  rw [(swept_reroot d id).root c hc, (withRootMark_fields d id).2.2.1, Option.some_inj, eq_comm]

theorem Marked.reroot (hm : d.Marked) (h : d.Sound) (hf : d.Lineage) (hid : d.RigidAt id) :
    (d.reroot id).Marked := by
  obtain ⟨hs, hrem⟩ := h.reroot id
  have hrig : ∀ {i}, (d.reroot id).Live i → ((d.reroot id).RigidAt i ↔ d.RigidAt i) := fun hi =>
    (rigidAt_congr (hrem.find?_eq hi)).trans rigidAt_withRootMark
  -- A root that is still named has not been swept away.
  have hrooted : (d.reroot id).Rooted := by
    refine (swept_reroot d id).rooted fun r hr => ?_
    rw [(withRootMark_fields d id).2.2.1] at hr
    obtain rfl := Option.some_inj.1 hr
    exact (rigidAt_withRootMark.2 hid).live
  refine ⟨fun r hr => ?_, fun c hc => ?_, fun k m hk hr => ?_⟩
  · have hl := hrooted r hr
    obtain rfl := (root_reroot hl).1 hr
    exact (hrig hl).2 hid
  · unfold MarkLaw
    rw [h.holdsRoot_reroot hf hm hc, root_reroot hc]
    -- Nothing that is left was computed from the new root, so nothing passes the mark on.
    refine (or_iff_left ?_).symm
    rintro ⟨a, hp, ha⟩
    obtain rfl := (h.holdsRoot_reroot hf hm hp.1.live).1 ha
    exact h.unread_reroot a hp.2.2
  · rw [hrig (hs.grounded.merge k m hk).output]
    have hk' := hrem.merges k m hk
    rw [merges_withRootMark] at hk'
    exact hm.derived k m hk' hr

/-- After any operation the marks are right. -/
theorem Reachable.marked (h : d.Reachable) : d.Marked := by
  refine h.induction_of_changes ?_ (fun _ hx => hx.congr rfl rfl rfl)
    (fun _ c hd _ hx => hx.receive hd.sound.grounded c) ?_
    (fun _ _ p hd hp hx => hx.reroot hd.sound hd.lineage ⟨p, hp⟩) fun _ hs hx => hx.process hs
  · exact ⟨fun _ hr => (by cases hr), fun _ hl => (by cases hl), fun _ _ hk => by cases hk⟩
  · intro d id hd hdet hx
    obtain ⟨hs, hrem⟩ := hd.sound.dropCluster hdet
    exact hx.remnant hs.grounded hrem (unwinds_dropCluster d id).swept
      fun k m hk hl => hd.sound.find?_dropCluster hd.lineage hdet hk hl

end Decomposition

namespace Solver

open Decomposition

/-! ### All runs -/

/-- After every run the marked clusters are those at the ends of chains of rigids from the root,
each the output of a merge that reads the one before; and if there is a root, then just one cluster
on the top level is marked. -/
theorem root_marks_run (config : SolverConfig) (ops : List Operation) :
    let d := (run config ops).decomposition
    (∀ c, d.Live c → (d.holdsRoot c = true ↔ ∃ r, d.root = some r ∧ d.RigidAt r ∧
      Relation.ReflTransGen (fun a b => d.RigidAt a ∧ d.RigidAt b ∧
        ∃ k m, d.merges.find? k = some m ∧ a ∈ m.inputs ∧ m.output = b) r c)) ∧
      ∀ r, d.root = some r → ∃! t, t ∈ d.topLevel ∧ d.holdsRoot t = true := by
  have hreach := reachable_run config ops
  have hs := hreach.sound
  have hm := hreach.marked
  refine ⟨fun c hc => hm.holdsRoot_iff hs.grounded hc, fun r hr => ?_⟩
  have hroot := (hm.mark r (hm.root r hr).live).2 (.inl hr)
  obtain ⟨t, ht, hmark⟩ := hs.exists_marked_above hreach.lossless hm hroot
  exact ⟨t, ⟨ht, hmark⟩, fun t' ht' => hs.eq_of_marked hm ht'.1 ht ht'.2 hmark⟩

/-- A choice of a root that is not refused takes effect, except that a new root that was computed
from the old one goes with all that was, and then there is no root. -/
theorem setRoot_effect (config : SolverConfig) (ops : List Operation) (id : ClusterId) (s' : Solver)
    (hok : (setRoot id).run.run (run config ops) = (.ok (), s')) :
    let d := (run config ops).decomposition
    let d' := s'.decomposition
    ((d'.Live id ∧ d'.root = some id ∧ d'.holdsRoot id = true) ↔
      ¬∃ old, d.root = some old ∧ d.Begets old id) ∧
      ((∃ old, d.root = some old ∧ d.Begets old id) → ¬d'.Live id ∧ d'.root = none) := by
  intro d d'
  have hreach := reachable_run config ops
  have hs := hreach.sound
  have hm := hreach.marked
  obtain ⟨e, he, hres⟩ := attempt_eq_ok hok
  obtain ⟨p, hp, rfl⟩ := hs.setRoot_eq_ok.1 he
  -- The call rebuilds around the new root and then searches, which only adds.
  have hd' : d' = (d.reroot id).process.withoutJournal := by
    have hr := decomposition_restructure (d.reroot id).process (run config ops)
    rw [hres] at hr
    exact hr
  have hreroot := (hs.reroot id).1
  have hgrow : (d.reroot id).PartOf d' := by
    rw [hd']
    exact hreroot.partOf_process.withoutJournal
  have hlive : d'.Live id ↔ (d.reroot id).Live id := by
    refine ⟨fun hl => hgrow.live_of_le hl ?_, hgrow.live⟩
    rw [(swept_reroot d id).clustersIssued, (withRootMark_fields d id).1]
    exact serial_le_of_live (live_of_cluster? hp)
  have heffect := hs.live_reroot_iff hreach.lineage hm ⟨p, hp⟩
  refine ⟨?_, fun hold => ?_⟩
  · rw [← heffect, ← hlive]
    refine ⟨And.left, fun hl => ?_⟩
    have hl' := hlive.1 hl
    refine ⟨hl, hgrow.root.trans ((root_reroot hl').2 rfl), ?_⟩
    rw [holdsRoot_congr (hgrow.find?_eq hl')]
    exact (hs.holdsRoot_reroot hreach.lineage hm hl').2 rfl
  · -- The new root was removed with the dependents of the old one, so no root is named any longer.
    have hgone : ¬(d.reroot id).Live id := fun hl => heffect.1 hl hold
    refine ⟨fun hl => hgone (hlive.1 hl), ?_⟩
    rw [hgrow.root, Option.eq_none_iff_forall_ne_some]
    intro r hr
    have hlr := (hm.reroot hs hreach.lineage ⟨p, hp⟩).root r hr
    rw [(root_reroot hlr.live).1 hr] at hlr
    exact hgone hlr.live

/-- The rigid of two points is computed from the root, a rigid of one of them.  To choose it as the
root is not refused, but takes it away, and the root with it. -/
theorem setRoot_effect_computed :
    let ops : List Operation :=
      [.add (.rigid (.ofList ["A"])), .setRoot ⟨1⟩, .add (.rigid (.ofList ["A", "B"]))]
    let d := (run {} ops).decomposition
    ∃ s', (setRoot ⟨3⟩).run.run (run {} ops) = (.ok (), s') ∧
      d.cluster? ⟨3⟩ = some (.rigid (.ofList ["A", "B"])) ∧
      (∃ old, d.root = some old ∧ d.Begets old ⟨3⟩) ∧
      ¬s'.decomposition.Live ⟨3⟩ ∧ s'.decomposition.root = none := by
  intro ops d
  obtain ⟨s', hok⟩ : ∃ s', (setRoot ⟨3⟩).run.run (run {} ops) = (.ok (), s') :=
    ⟨_, eq_ok (by decide +kernel)⟩
  have hread : (d.merges.values.any fun m => decide (⟨1⟩ ∈ m.inputs ∧ m.output = ⟨3⟩)) = true := by
    decide +kernel
  obtain ⟨m, hm, hdec⟩ := List.any_eq_true.1 hread
  obtain ⟨k, hk⟩ := Registry.mem_values_iff.1 hm
  have hroot : d.root = some ⟨1⟩ := by decide +kernel
  have hold : ∃ old, d.root = some old ∧ d.Begets old ⟨3⟩ :=
    ⟨⟨1⟩, hroot, .single ⟨k, m, hk, of_decide_eq_true hdec⟩⟩
  exact ⟨s', hok, by decide +kernel, hold, (setRoot_effect {} ops ⟨3⟩ s' hok).2 hold⟩

/-- So a choice of a root that is not refused need not take effect. -/
theorem setRoot_without_effect :
    ¬∀ (config : SolverConfig) (ops : List Operation) (id : ClusterId) (s' : Solver),
      (run config ops).decomposition.RigidAt id →
      (setRoot id).run.run (run config ops) = (.ok (), s') →
      s'.decomposition.Live id ∧ s'.decomposition.root = some id ∧
        s'.decomposition.holdsRoot id = true := by
  intro h
  have hok : ((setRoot ⟨3⟩).run.run (run {} [.add (.rigid (.ofList ["A"])), .setRoot ⟨1⟩,
      .add (.rigid (.ofList ["A", "B"]))])).1.toOption = some () := by decide +kernel
  have hrigid : (run {} [.add (.rigid (.ofList ["A"])), .setRoot ⟨1⟩,
      .add (.rigid (.ofList ["A", "B"]))]).decomposition.RigidAt ⟨3⟩ :=
    ⟨.ofList ["A", "B"], by decide +kernel⟩
  have hroot := (h {} _ ⟨3⟩ _ hrigid (eq_ok hok)).2.1
  have hnone : ((setRoot ⟨3⟩).run.run (run {} [.add (.rigid (.ofList ["A"])), .setRoot ⟨1⟩,
      .add (.rigid (.ofList ["A", "B"]))])).2.decomposition.root = none := by decide +kernel
  rw [hnone] at hroot
  cases hroot

end Solver

end PlanarSketch
