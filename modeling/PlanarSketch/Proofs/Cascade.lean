/-
The cascade of a removal.

Undoing a merge undoes the merges above it, discards its output and restores
what it consumed, and restoring a derived hedgehog undoes its derivation.
Here the same recursion is a list of chores that are done one after the other,
without any bound on their number.

* `Chore`, `Chore.next`, `Unwinds`: the chores, and a list of them done to the
  end;
* `unwinds_dropCluster`: a removal does its chores to the end, so the bound on
  the levels of the recursion never cuts it short;
* `Unwinding`: what holds between two chores, kept by each of them
  (`Unwinding.step`);
* `Swept`: what a removal leaves of the root and writes into the journal;
* `Solver.removal_cascade`: just what was computed from the removed cluster
  goes, and the derived hedgehogs that nothing needs then.
-/
import PlanarSketch.Proofs.Lineage

namespace PlanarSketch

namespace Decomposition

variable {d d' d₀ e : Decomposition} {id o : ClusterId} {k : MergeId} {m : Merge}

/-! ### Chores -/

/-- Something left to do while a cluster is being removed. -/
inductive Chore where
  | undo (k : MergeId)
  | discard (id : ClusterId)
  | restore (id : ClusterId)

/-- Does one chore: the chores that it gives rise to, and the decomposition after it. -/
def Chore.next (d : Decomposition) : Chore → List Chore × Decomposition
  | .undo k =>
    match d.merges.find? k with
    | none => ([], d)
    | some m =>
      (((d.withoutMerge k).consumers m.output).map .undo ++
        .discard m.output :: m.consumed.map .restore, d.withoutMerge k)
  | .discard id => ([], d.discard id)
  | .restore id =>
    if !d.clusters.contains id || d.isTopLevel id || d.isNeeded id then ([], d)
    else
      match d.determining? id with
      | some k => if d.isDerived id then ([.undo k], d) else ([], d.returned id)
      | none => ([], d.returned id)

/-- Doing the chores of a list, and before the next one whatever each gives rise to, ends with a
decomposition. -/
inductive Unwinds : List Chore → Decomposition → Decomposition → Prop
  | done (d : Decomposition) : Unwinds [] d d
  | step {c : Chore} {rest : List Chore} {d e : Decomposition}
      (h : Unwinds ((c.next d).1 ++ rest) (c.next d).2 e) : Unwinds (c :: rest) d e

/-- A function does a chore for each argument, on decompositions with a bounded number of merges. -/
def Follows {α : Type} (f : Decomposition → α → Decomposition) (chore : α → Chore)
    (bound : Nat) : Prop :=
  ∀ d a, d.merges.size ≤ bound → (f d a).merges.size ≤ d.merges.size ∧
    ∀ rest e, Unwinds rest (f d a) e → Unwinds (chore a :: rest) d e

theorem Follows.foldl {α : Type} {f : Decomposition → α → Decomposition} {chore : α → Chore}
    {bound : Nat} (h : Follows f chore bound) (l : List α) (hd : d.merges.size ≤ bound) :
    (l.foldl f d).merges.size ≤ d.merges.size ∧
      ∀ rest e, Unwinds rest (l.foldl f d) e → Unwinds (l.map chore ++ rest) d e := by
  induction l generalizing d with
  | nil => exact ⟨Nat.le_refl _, fun _ _ hu => hu⟩
  | cons a l ih =>
    obtain ⟨hsize, hone⟩ := h d a hd
    obtain ⟨hsize', hall⟩ := ih (Nat.le_trans hsize hd)
    exact ⟨Nat.le_trans hsize' hsize, fun rest e hu => hone _ e (hall rest e hu)⟩

theorem follows_restoreWith {drop : Decomposition → MergeId → Decomposition} {bound : Nat}
    (h : Follows drop .undo bound) : Follows (restoreWith drop) .restore bound := by
  intro d id hd
  unfold restoreWith
  split
  · -- The cluster is gone or still read, and nothing happens.
    rename_i hskip
    refine ⟨Nat.le_refl _, fun rest e hu => .step ?_⟩
    rw [Chore.next, if_pos hskip]
    exact hu
  · rename_i hgo
    cases hk : d.determining? id with
    | none =>
      refine ⟨Nat.le_refl _, fun rest e hu => .step ?_⟩
      simp only [Chore.next, if_neg hgo, hk]
      exact hu
    | some k =>
      dsimp only
      split
      · rename_i hder
        -- A derivation that nothing reads is undone, which is where the call goes on.
        obtain ⟨hsize, hdrop⟩ := h d k hd
        refine ⟨hsize, fun rest e hu => .step ?_⟩
        simp only [Chore.next, if_neg hgo, hk, if_pos hder]
        exact hdrop rest e hu
      · -- Another cluster just returns to the top level.
        rename_i hder
        refine ⟨Nat.le_refl _, fun rest e hu => .step ?_⟩
        simp only [Chore.next, if_neg hgo, hk, if_neg hder]
        exact hu

/-- With as many levels as there are merges the recursion does its chores to the end. -/
theorem follows_dropMergeWithin (levels : Nat) : Follows (dropMergeWithin levels) .undo levels := by
  induction levels with
  | zero =>
    intro d k hd
    refine ⟨Nat.le_refl _, fun rest e hu => .step ?_⟩
    have hk : d.merges.find? k = none := by
      refine Option.eq_none_iff_forall_ne_some.2 fun m hm => ?_
      have hsize := Registry.size_erase (Registry.mem_keys_of_find? hm)
      omega
    simp only [Chore.next, hk]
    exact hu
  | succ levels ih =>
    intro d k hd
    unfold dropMergeWithin
    split
    · rename_i hk
      refine ⟨Nat.le_refl _, fun rest e hu => .step ?_⟩
      simp only [Chore.next, hk]
      exact hu
    · rename_i m hk
      -- Without the merge there is one level less to go.
      have hsize := Registry.size_erase (Registry.mem_keys_of_find? hk)
      have h₁ : (d.withoutMerge k).merges.size ≤ levels := by
        show (d.merges.erase k).size ≤ levels
        omega
      obtain ⟨hs₂, hundo⟩ := ih.foldl ((d.withoutMerge k).consumers m.output) h₁
      generalize hd₂ : ((d.withoutMerge k).consumers m.output).foldl (dropMergeWithin levels)
        (d.withoutMerge k) = d₂ at hs₂ hundo
      have hs₃ : (d₂.discard m.output).merges.size = d₂.merges.size := by rw [discard_merges]
      obtain ⟨hs₄, hrestore⟩ := (follows_restoreWith ih).foldl m.consumed
        (d := d₂.discard m.output) (by omega)
      refine ⟨?_, fun rest e hu => .step ?_⟩
      · show (m.consumed.foldl _ ((((d.withoutMerge k).consumers m.output).foldl _
          (d.withoutMerge k)).discard m.output)).merges.size ≤ _
        rw [hd₂]
        have hs₁ : (d.withoutMerge k).merges.size ≤ d.merges.size := by
          show (d.merges.erase k).size ≤ d.merges.size
          omega
        omega
      · simp only [Chore.next, hk, List.append_assoc, List.cons_append]
        refine hundo _ e (.step (hrestore rest e ?_))
        rw [← hd₂]
        exact hu

theorem follows_dropMerge (bound : Nat) : Follows dropMerge .undo bound := fun d k _ =>
  follows_dropMergeWithin d.merges.size d k (Nat.le_refl _)

theorem unwinds_dropConsumers (d : Decomposition) (id : ClusterId) :
    Unwinds ((d.consumers id).map .undo) d (d.dropConsumers id) := by
  have h := ((follows_dropMerge d.merges.size).foldl (d.consumers id) (Nat.le_refl _)).2 [] _
    (.done _)
  rwa [List.append_nil] at h

/-- The chores of removing a cluster. -/
def removal (d : Decomposition) (id : ClusterId) : List Chore :=
  (d.consumers id).map .undo ++ [.discard id]

theorem unwinds_dropCluster (d : Decomposition) (id : ClusterId) :
    Unwinds (d.removal id) d (d.dropCluster id) :=
  ((follows_dropMerge d.merges.size).foldl (d.consumers id) (Nat.le_refl _)).2 [.discard id] _
    (.step (.done _))

/-! ### What a chore does -/

/-- What doing a chore can mean. -/
inductive Chore.Does (d : Decomposition) : Chore → List Chore → Decomposition → Prop
  | gone {k : MergeId} (hk : d.merges.find? k = none) : Does d (.undo k) [] d
  | undone {k : MergeId} {m : Merge} (hk : d.merges.find? k = some m) :
      Does d (.undo k) (((d.withoutMerge k).consumers m.output).map .undo ++
        .discard m.output :: m.consumed.map .restore) (d.withoutMerge k)
  | discarded (id : ClusterId) : Does d (.discard id) [] (d.discard id)
  | kept (id : ClusterId) : Does d (.restore id) [] d
  | derived {k : MergeId} {m : Merge} (hk : d.merges.find? k = some m)
      (hr : m.rule.isDerivation = true) (hfree : ¬d.Consumed m.output) :
      Does d (.restore m.output) [.undo k] d
  | returned {id : ClusterId} : Does d (.restore id) [] (d.returned id)

theorem Chore.does_next (d : Decomposition) (c : Chore) : c.Does d (c.next d).1 (c.next d).2 := by
  cases c with
  | undo k =>
    unfold Chore.next
    dsimp only
    split
    · rename_i hk
      exact .gone hk
    · rename_i m hk
      exact .undone hk
  | discard id => exact .discarded id
  | restore id =>
    unfold Chore.next
    dsimp only
    split
    · -- Gone or still read.
      exact .kept id
    · rename_i hgo
      rw [Bool.or_eq_true, not_or, isNeeded_iff] at hgo
      split
      · rename_i k hdet
        split
        · -- Nothing reads it any more, and it was derived.
          rename_i hder
          obtain ⟨m, hk, rfl⟩ := find?_of_determining? hdet
          have hr : m.rule.isDerivation = true := by simpa [isDerived, hdet, hk] using hder
          exact .derived hk hr hgo.2
        · exact .returned
      · exact .returned

/-- What every chore keeps holds when all are done. -/
theorem Unwinds.induction {I : List Chore → Decomposition → Prop} {todo : List Chore}
    (hstep : ∀ c new rest d d', Chore.Does d c new d' → I (c :: rest) d → I (new ++ rest) d')
    (h : Unwinds todo d e) (hi : I todo d) : I [] e := by
  induction h with
  | done d => exact hi
  | step _ ih => exact ih (hstep _ _ _ _ _ (Chore.does_next _ _) hi)

theorem find?_withoutMerge_eq_none {j : MergeId} :
    (d.withoutMerge k).merges.find? j = none ↔ k = j ∨ d.merges.find? j = none := by
  show (d.merges.erase k).find? j = none ↔ _
  rw [Registry.find?_erase]
  by_cases h : k = j
  · simp [h]
  · simp [h]

/-! ### Between two chores -/

/-- The state of a removal of `o` from `d₀` while chores are left.  `F` holds of the merges that
have to go. -/
structure Unwinding (d₀ : Decomposition) (o : ClusterId) (F : Merge → Prop) (todo : List Chore)
    (d : Decomposition) : Prop where
  merges : ∀ k m, d.merges.find? k = some m → d₀.merges.find? k = some m
  outputs : ∀ k m, d₀.merges.find? k = some m → d.merges.find? k = none → d.Live m.output →
    .discard m.output ∈ todo
  spared : ∀ k m, d₀.merges.find? k = some m → d.merges.find? k = none →
    F m ∨ m.rule.isDerivation = true
  aimed : ∀ k m, .undo k ∈ todo → d.merges.find? k = some m →
    F m ∨ m.rule.isDerivation = true ∧ ∀ j m', d.merges.find? j = some m' → m.output ∉ m'.inputs
  computed : ∀ id, d₀.Live id → ¬d.Live id → id = o ∨ ∃ k m, d₀.merges.find? k = some m ∧
    m.output = id
  discards : ∀ id, .discard id ∈ todo → id = o ∨ ∃ k m, d₀.merges.find? k = some m ∧ m.output = id

variable {F : Merge → Prop} {c : Chore} {new rest : List Chore}

/-- Chores that leave the clusters and merges alone and give rise to none or to the undoing of a
derivation that nothing reads. -/
theorem Unwinding.idle (h : Unwinding d₀ o F (c :: rest) d) (hm : d'.merges = d.merges)
    (hl : ∀ id, d'.Live id ↔ d.Live id) (hc : ∀ id, c ≠ .discard id)
    (hnew : ∀ c ∈ new, ∃ k m, c = .undo k ∧ d.merges.find? k = some m ∧
      m.rule.isDerivation = true ∧ ∀ j m', d.merges.find? j = some m' → m.output ∉ m'.inputs) :
    Unwinding d₀ o F (new ++ rest) d' := by
  -- No cluster is to be discarded that was not before.
  have hdis : ∀ id, .discard id ∈ new ++ rest → .discard id ∈ rest := by
    intro id hid
    rcases List.mem_append.1 hid with hid | hid
    · obtain ⟨k, m, he, -⟩ := hnew _ hid
      cases he
    · exact hid
  constructor
  · rw [hm]
    exact h.merges
  · intro k m hk hn hlive
    rw [hm] at hn
    rcases List.mem_cons.1 (h.outputs k m hk hn ((hl _).1 hlive)) with he | hmem
    · exact absurd he.symm (hc _)
    · exact List.mem_append_right _ hmem
  · rw [hm]
    exact h.spared
  · rw [hm]
    intro k m hk hkm
    rcases List.mem_append.1 hk with hk | hk
    · -- A new chore undoes a derivation that nothing reads.
      obtain ⟨k', m', he, hk', hr, hread⟩ := hnew _ hk
      obtain rfl := Chore.undo.inj he
      obtain rfl := Option.some_inj.1 (hkm.symm.trans hk')
      exact .inr ⟨hr, hread⟩
    · exact h.aimed k m (List.mem_cons_of_mem _ hk) hkm
  · intro id hid hn
    exact h.computed id hid (mt (hl id).2 hn)
  · exact fun id hid => h.discards id (List.mem_cons_of_mem _ (hdis id hid))

/-- Undoing a merge adds the undoing of the merges that read its output. -/
theorem Unwinding.undone (h : Unwinding d₀ o F (.undo k :: rest) d)
    (hF : ∀ k m j m', d₀.merges.find? k = some m → F m → d₀.merges.find? j = some m' →
      m.output ∈ m'.inputs → F m')
    (hk : d.merges.find? k = some m) :
    Unwinding d₀ o F ((((d.withoutMerge k).consumers m.output).map .undo ++
      .discard m.output :: m.consumed.map .restore) ++ rest) (d.withoutMerge k) := by
  have hk₀ := h.merges k m hk
  have haim := h.aimed k m List.mem_cons_self hk
  constructor
  · exact fun j m' hj => h.merges j m' (find?_withoutMerge.1 hj).2
  · intro j m' hj hn hlive
    rcases find?_withoutMerge_eq_none.1 hn with rfl | hn
    · obtain rfl := Option.some_inj.1 (hk₀.symm.trans hj)
      simp
    · have hmem := h.outputs j m' hj hn hlive
      simp only [List.mem_cons, reduceCtorEq, false_or] at hmem
      exact List.mem_append_right _ hmem
  · intro j m' hj hn
    rcases find?_withoutMerge_eq_none.1 hn with rfl | hn
    · obtain rfl := Option.some_inj.1 (hk₀.symm.trans hj)
      exact haim.imp id And.left
    · exact h.spared j m' hj hn
  · intro j m' hj hjm
    have hjd := (find?_withoutMerge.1 hjm).2
    have hsub : ∀ m'' : Merge, (∀ j m', d.merges.find? j = some m' → m''.output ∉ m'.inputs) →
        ∀ j m', (d.withoutMerge k).merges.find? j = some m' → m''.output ∉ m'.inputs :=
      fun m'' hread i n hi => hread i n (find?_withoutMerge.1 hi).2
    rcases List.mem_append.1 hj with hj | hj
    · -- A merge that reads the output has to go with it; and nothing reads a spare hedgehog.
      simp only [List.mem_append, List.mem_map, Chore.undo.injEq, exists_eq_right, List.mem_cons,
        reduceCtorEq, and_false, exists_false, or_false] at hj
      obtain ⟨n, hn, hin⟩ := mem_consumers_iff.1 hj
      obtain rfl := Option.some_inj.1 (hjm.symm.trans hn)
      rcases haim with hf | ⟨-, hread⟩
      · exact .inl (hF k m j m' hk₀ hf (h.merges j m' hjd) hin)
      · exact absurd hin (hread j m' hjd)
    · exact (h.aimed j m' (List.mem_cons_of_mem _ hj) hjd).imp id fun hd => ⟨hd.1, hsub m' hd.2⟩
  · exact h.computed
  · intro i hi
    rcases List.mem_append.1 hi with hi | hi
    · simp only [List.mem_append, List.mem_map, reduceCtorEq, and_false, exists_false, false_or,
        List.mem_cons, Chore.discard.injEq, or_false] at hi
      exact .inr ⟨k, m, hk₀, hi.symm⟩
    · exact h.discards i (List.mem_cons_of_mem _ hi)

theorem Unwinding.discarded (h : Unwinding d₀ o F (.discard id :: rest) d) :
    Unwinding d₀ o F rest (d.discard id) := by
  constructor
  · rw [discard_merges]
    exact h.merges
  · intro k m hk hn hlive
    rw [discard_merges] at hn
    obtain ⟨hne, hlive⟩ := live_discard.1 hlive
    rcases List.mem_cons.1 (h.outputs k m hk hn hlive) with he | hmem
    · exact absurd (Chore.discard.inj he) hne
    · exact hmem
  · rw [discard_merges]
    exact h.spared
  · rw [discard_merges]
    exact fun k m hk => h.aimed k m (List.mem_cons_of_mem _ hk)
  · intro i hi hn
    -- The discarded cluster had a reason to go; the others are as before.
    by_cases he : i = id
    · rw [he]
      exact h.discards id List.mem_cons_self
    · exact h.computed i hi fun hl => hn (live_discard.2 ⟨he, hl⟩)
  · exact fun i hi => h.discards i (List.mem_cons_of_mem _ hi)

/-- Every chore keeps what holds between two chores. -/
theorem Unwinding.step (hg : d₀.Grounded) (hline : d₀.Lineage)
    (hF : ∀ k m j m', d₀.merges.find? k = some m → F m → d₀.merges.find? j = some m' →
      m.output ∈ m'.inputs → F m')
    (hc : c.Does d new d') (h : Unwinding d₀ o F (c :: rest) d) :
    Unwinding d₀ o F (new ++ rest) d' := by
  cases hc with
  | gone hk => exact h.idle rfl (fun _ => Iff.rfl) (fun _ he => by cases he) (by simp)
  | undone hk => exact h.undone hF hk
  | discarded id => exact h.discarded
  | kept id => exact h.idle rfl (fun _ => Iff.rfl) (fun _ he => by cases he) (by simp)
  | @derived k m hk hr hfree =>
    refine h.idle rfl (fun _ => Iff.rfl) (fun _ he => by cases he) fun c hc => ?_
    refine ⟨k, m, List.mem_singleton.1 hc, hk, hr, fun j m' hj hin => hfree ⟨j, m', hj, ?_⟩⟩
    -- Nothing but a merge that consumes it reads a derived hedgehog.
    have hj₀ := h.merges j m' hj
    have hr' : m'.rule.isDerivation = false := by
      rw [← Bool.not_eq_true]
      exact fun hr' => hline.firsthand k j m m' (h.merges k m hk) hj₀ hr hr' hin
    rw [(hg.merge j m' hj₀).consumption, hr']
    exact hin
  | returned => exact h.idle rfl (fun _ => Iff.rfl) (fun _ he => by cases he) (by simp)

/-- What is left of a removal when all chores are done. -/
theorem Sound.unwinding_dropCluster (h : d.Sound) (hf : d.Lineage) (id : ClusterId) :
    Unwinding d id (fun m => d.LeadsTo id m.output) [] (d.dropCluster id) := by
  -- At the start nothing is gone, and the chores are to undo what reads the cluster and to discard
  -- it.
  have hstart : Unwinding d id (fun m => d.LeadsTo id m.output) (d.removal id) d := by
    have hsome : ∀ {k m}, d.merges.find? k = some m → d.merges.find? k ≠ none := by
      intro k m hk hn
      rw [hk] at hn
      cases hn
    refine ⟨fun _ _ hk => hk, fun k m hk hn => absurd hn (hsome hk),
      fun k m hk hn => absurd hn (hsome hk), fun k m hk hkm => ?_,
      fun i hl hn => absurd hl hn, fun i hi => ?_⟩
    · simp only [removal, List.mem_append, List.mem_map, Chore.undo.injEq, exists_eq_right,
        List.mem_singleton, reduceCtorEq, or_false] at hk
      obtain ⟨m', hm', hin⟩ := mem_consumers_iff.1 hk
      obtain rfl := Option.some_inj.1 (hkm.symm.trans hm')
      exact .inl (.single ⟨k, m, hkm, hin, rfl⟩)
    · simp only [removal, List.mem_append, List.mem_map, reduceCtorEq, and_false, exists_false,
        List.mem_singleton, Chore.discard.injEq, false_or] at hi
      exact .inl hi
  refine (unwinds_dropCluster d id).induction (I := Unwinding d id _) (fun c new rest d₁ d₂ hc hI =>
    hI.step h.grounded hf (fun k m j m' hk hlead hj hin => ?_) hc) hstart
  -- What reads an output that the cluster leads to is led to as well.
  exact hlead.tail ⟨j, m', hj, hin, rfl⟩

end Decomposition

/-! ### The root and the journal -/

/-- The edit removes something that was in `d` and is not in `d'`. -/
def Edit.Removes (d d' : Decomposition) : Edit → Prop
  | .clusterAdded _ => False
  | .mergeAdded _ => False
  | .mergeRemoved k => (∃ m, d.merges.find? k = some m) ∧ d'.merges.find? k = none
  | .clusterRemoved id => d.Live id ∧ ¬d'.Live id

/-- What was removed stays away when more is removed. -/
theorem Edit.Removes.mono {d₀ d d' : Decomposition} {e : Edit} (h : e.Removes d₀ d)
    (hl : ∀ id, d'.Live id → d.Live id)
    (hm : ∀ k m, d'.merges.find? k = some m → d.merges.find? k = some m) : e.Removes d₀ d' := by
  cases e with
  | clusterAdded id => exact h
  | mergeAdded k => exact h
  | mergeRemoved k =>
    obtain ⟨hold, hgone⟩ := h
    refine ⟨hold, Option.eq_none_iff_forall_ne_some.2 fun m hk => ?_⟩
    rw [hm k m hk] at hgone
    cases hgone
  | clusterRemoved id => exact ⟨h.1, fun hl' => h.2 (hl id hl')⟩

namespace Decomposition

variable {d d' d₀ e : Decomposition} {id o : ClusterId} {k : MergeId} {m : Merge} {c : Chore}
  {new : List Chore}

/-- The root is a cluster in use. -/
def Rooted (d : Decomposition) : Prop := ∀ r, d.root = some r → d.Live r

/-- Undoing merges hands out no keys, takes the root away only with its cluster, and writes nothing
but removals into the journal. -/
structure Swept (d₀ d : Decomposition) : Prop where
  live : ∀ id, d.Live id → d₀.Live id
  merges : ∀ k m, d.merges.find? k = some m → d₀.merges.find? k = some m
  clustersIssued : d.clusters.issued = d₀.clusters.issued
  mergesIssued : d.merges.issued = d₀.merges.issued
  root : ∀ r, d.Live r → (d.root = some r ↔ d₀.root = some r)
  rooted : d₀.Rooted → d.Rooted
  journal : ∀ e ∈ d.journal, e ∈ d₀.journal ∨ e.Removes d₀ d

theorem Swept.refl (d : Decomposition) : d.Swept d :=
  ⟨fun _ h => h, fun _ _ h => h, rfl, rfl, fun _ _ => Iff.rfl, fun h => h, fun _ h => .inl h⟩

theorem Swept.withoutMerge (h : d₀.Swept d) (hk : d.merges.find? k = some m) :
    d₀.Swept (d.withoutMerge k) := by
  have hsub : ∀ j m', (d.withoutMerge k).merges.find? j = some m' → d.merges.find? j = some m' :=
    fun j m' hj => (find?_withoutMerge.1 hj).2
  refine ⟨h.live, fun j m' hj => h.merges j m' (hsub j m' hj), h.clustersIssued, h.mergesIssued,
    h.root, h.rooted, fun e he => ?_⟩
  rcases List.mem_append.1 he with he | he
  · exact (h.journal e he).imp id fun hr => hr.mono (fun _ hl => hl) hsub
  · rw [List.mem_singleton.1 he]
    exact .inr ⟨⟨m, h.merges k m hk⟩, find?_withoutMerge_eq_none.2 (.inl rfl)⟩

theorem Swept.discard (h : d₀.Swept d) (id : ClusterId) : d₀.Swept (d.discard id) := by
  cases hn : d.clusters.find? id with
  | none =>
    rw [discard_eq_self (Registry.find?_eq_none.1 hn)]
    exact h
  | some node =>
    have hl : ∀ i, (d.discard id).Live i → i ≠ id ∧ d.Live i := fun i hi => live_discard.1 hi
    have hm : ∀ k m, (d.discard id).merges.find? k = some m → d.merges.find? k = some m := by
      intro k m hk
      rwa [discard_merges] at hk
    obtain ⟨p, _, hp, -⟩ := discard_of_find? hn
    have hci : (d.discard id).clusters.issued = d.clusters.issued := by rw [hp]; rfl
    have hmi : (d.discard id).merges.issued = d.merges.issued := by rw [hp]
    have hroot : (d.discard id).root = if d.root = some id then none else d.root := by rw [hp]
    have hj : (d.discard id).journal = d.journal ++ [.clusterRemoved id] := by rw [hp]
    refine ⟨fun i hi => h.live i (hl i hi).2, fun k m hk => h.merges k m (hm k m hk),
      hci.trans h.clustersIssued, hmi.trans h.mergesIssued, fun r hr => ?_, fun h₀ r hr => ?_,
      fun e he => ?_⟩
    · -- The discarded cluster is not in use, so the root is still what it was.
      obtain ⟨hne, hr⟩ := hl r hr
      rw [hroot, ← h.root r hr]
      split
      · rename_i he
        refine iff_of_false (by simp) fun he' => ?_
        rw [he] at he'
        exact hne (Option.some_inj.1 he').symm
      · exact Iff.rfl
    · rw [hroot] at hr
      split at hr
      · cases hr
      · rename_i hne
        refine live_discard.2 ⟨?_, h.rooted h₀ r hr⟩
        rintro rfl
        exact hne hr
    · rw [hj] at he
      rcases List.mem_append.1 he with he | he
      · exact (h.journal e he).imp (fun he => he) fun hr => hr.mono (fun i hi => (hl i hi).2) hm
      · rw [List.mem_singleton.1 he]
        refine .inr ⟨h.live id (Registry.mem_keys_of_find? hn), fun hi => ?_⟩
        exact (hl id hi).1 rfl

theorem Swept.step (hc : c.Does d new d') (h : d₀.Swept d) : d₀.Swept d' := by
  cases hc with
  | gone hk => exact h
  | undone hk => exact h.withoutMerge hk
  | discarded id => exact h.discard id
  | kept id => exact h
  | derived hk hr hfree => exact h
  | returned =>
    exact ⟨h.live, h.merges, h.clustersIssued, h.mergesIssued, h.root, h.rooted,
      fun e he => (h.journal e he).imp (fun he => he) fun hr => hr.mono (fun _ hl => hl)
        fun _ _ hk => hk⟩

theorem Unwinds.swept {todo : List Chore} (h : Unwinds todo d e) : d.Swept e :=
  h.induction (I := fun _ => d.Swept) (fun _ _ _ _ _ hc hs => hs.step hc) (.refl d)

theorem Swept.trans (h : d₀.Swept d) (h' : d.Swept e) : d₀.Swept e where
  live := fun i hi => h.live i (h'.live i hi)
  merges := fun k m hk => h.merges k m (h'.merges k m hk)
  clustersIssued := h'.clustersIssued.trans h.clustersIssued
  mergesIssued := h'.mergesIssued.trans h.mergesIssued
  root := fun r hr => (h'.root r hr).trans (h.root r (h'.live r hr))
  rooted := fun h₀ => h'.rooted (h.rooted h₀)
  journal := fun e he => by
    rcases h'.journal e he with he | he
    · exact (h.journal e he).imp_right fun hr => hr.mono h'.live h'.merges
    · -- What the second part removed was there when the first began.
      right
      cases e with
      | clusterAdded i => exact he
      | mergeAdded k => exact he
      | mergeRemoved k =>
        obtain ⟨⟨m, hk⟩, hgone⟩ := he
        exact ⟨⟨m, h.merges k m hk⟩, hgone⟩
      | clusterRemoved i => exact ⟨h.live i he.1, he.2⟩

theorem swept_rebuildDependents (d : Decomposition) (id : ClusterId) :
    d.Swept (d.rebuildDependents id) := by
  unfold rebuildDependents
  split
  · obtain ⟨h₁, h₂, h₃, h₄, h₅, h₆, h₇⟩ := (d.unwinds_dropConsumers id).swept
    dsimp only
    split
    · exact ⟨h₁, h₂, h₃, h₄, h₅, h₆, h₇⟩
    · exact ⟨h₁, h₂, h₃, h₄, h₅, h₆, h₇⟩
  · exact .refl d

theorem swept_reroot (d : Decomposition) (id : ClusterId) :
    (d.withRootMark id).Swept (d.reroot id) := by
  rw [reroot_eq]
  cases d.root.filter (· ≠ id) with
  | none => exact swept_rebuildDependents _ id
  | some old => exact (swept_rebuildDependents _ old).trans (swept_rebuildDependents _ id)

/-- Moving the root mark hands out no keys and leaves the journal alone. -/
theorem withRootMark_fields (d : Decomposition) (id : ClusterId) :
    (d.withRootMark id).clusters.issued = d.clusters.issued ∧
      (d.withRootMark id).merges.issued = d.merges.issued ∧
      (d.withRootMark id).root = some id ∧ (d.withRootMark id).journal = d.journal := by
  unfold withRootMark
  cases d.root.filter (· ≠ id) <;> exact ⟨rfl, rfl, rfl, rfl⟩

theorem PartOf.rooted (h : d.PartOf d') (hr : d.Rooted) : d'.Rooted := by
  intro r hroot
  rw [h.root] at hroot
  exact h.live (hr r hroot)

/-- After any operation the root is in use. -/
theorem Reachable.rooted (h : d.Reachable) : d.Rooted := by
  refine h.induction_of_changes (fun _ hr => by cases hr) (fun _ hx => hx)
    (fun d c _ _ hx => (partOf_receive d c).rooted hx)
    (fun d id _ _ hx => (unwinds_dropCluster d id).swept.rooted hx) ?_
    fun _ hs hx => hs.partOf_process.rooted hx
  intro d id p _ hp _
  refine (swept_reroot d id).rooted fun r hroot => ?_
  rw [(withRootMark_fields d id).2.2.1] at hroot
  obtain rfl := Option.some_inj.1 hroot
  refine live_of_cluster? (c := .rigid p) ?_
  rw [cluster?_withRootMark]
  exact hp

theorem Reachable.journal_eq_nil (h : d.Reachable) : d.journal = [] := by
  cases h <;> rfl

/-! ### What a removal leaves -/

theorem not_live_dropCluster (d : Decomposition) (id : ClusterId) : ¬(d.dropCluster id).Live id :=
  fun hl => (live_discard.1 hl).1 rfl

/-- A merge whose output is still there is still there. -/
theorem Sound.find?_dropCluster (h : d.Sound) (hf : d.Lineage) (hid : d.determining? id = none)
    (hk : d.merges.find? k = some m) (hl : (d.dropCluster id).Live m.output) :
    (d.dropCluster id).merges.find? k = some m := by
  cases hn : (d.dropCluster id).merges.find? k with
  | none =>
    have hmem := (h.unwinding_dropCluster hf id).outputs k m hk hn hl
    cases hmem
  | some m' =>
    have hk' := (h.dropCluster hid).2.merges k m' hn
    rw [hk] at hk'
    exact congrArg some (Option.some_inj.1 hk').symm

/-- What was computed from the removed cluster is gone. -/
theorem Sound.not_live_of_leadsTo (h : d.Sound) (hf : d.Lineage) (hid : d.determining? id = none)
    {b : ClusterId} (hb : d.LeadsTo id b) : ¬(d.dropCluster id).Live b := by
  induction hb with
  | refl => exact not_live_dropCluster d id
  | tail _ hstep ih =>
    obtain ⟨k, m, hk, hin, rfl⟩ := hstep
    intro hl
    have hk' := h.find?_dropCluster hf hid hk hl
    exact ih (((h.dropCluster hid).1.grounded.merge k m hk').inputs _ hin)

/-- A merge survives a removal if its output was not computed from the removed cluster and is, if it
was derived, still needed. -/
theorem Sound.survives_iff (h : d.Sound) (hf : d.Lineage) (hid : d.determining? id = none)
    (hk : d.merges.find? k = some m) :
    (d.dropCluster id).merges.find? k = some m ↔ ¬d.LeadsTo id m.output ∧
      (m.rule.isDerivation = true → (d.dropCluster id).Consumed m.output) := by
  obtain ⟨hs, -⟩ := h.dropCluster hid
  constructor
  · intro hk'
    have hl := (hs.grounded.merge k m hk').output
    refine ⟨fun hlead => h.not_live_of_leadsTo hf hid hlead hl, fun hr => ?_⟩
    -- A derived hedgehog is never on the top level, so some merge consumes it.
    have htop := hs.settled.hidden k m hk' hr (by simp)
    rwa [hs.settled.frontier _ hl (by simp), Classical.not_not] at htop
  · rintro ⟨hlead, hcons⟩
    by_cases hr : m.rule.isDerivation = true
    · refine h.find?_dropCluster hf hid hk (Classical.not_not.1 fun hl => ?_)
      exact hs.grounded.not_consumed hl (hcons hr)
    · cases hn : (d.dropCluster id).merges.find? k with
      | none =>
        rcases (h.unwinding_dropCluster hf id).spared k m hk hn with hlead' | hr'
        · exact absurd hlead' hlead
        · exact absurd hr' hr
      | some m' =>
        have hk' := (h.dropCluster hid).2.merges k m' hn
        rw [hk] at hk'
        exact hk'.symm

/-- Of the clusters that were added a removal takes only the one it is asked to. -/
theorem Sound.added_dropCluster (h : d.Sound) (hf : d.Lineage) (hid : d.determining? id = none)
    (c : ClusterId) :
    ((d.dropCluster id).Live c ∧ (d.dropCluster id).determining? c = none) ↔
      (d.Live c ∧ d.determining? c = none) ∧ c ≠ id := by
  obtain ⟨hs, hrem⟩ := h.dropCluster hid
  constructor
  · rintro ⟨hl, hdet⟩
    refine ⟨⟨hrem.live hl, determining?_eq_none.2 fun k m hk hout => ?_⟩, ?_⟩
    · subst hout
      exact determining?_eq_none.1 hdet k m (h.find?_dropCluster hf hid hk hl) rfl
    · rintro rfl
      exact not_live_dropCluster d c hl
  · rintro ⟨⟨hl, hdet⟩, hne⟩
    refine ⟨Classical.not_not.1 fun hn => ?_, determining?_eq_none.2 fun k m hk => ?_⟩
    · rcases (h.unwinding_dropCluster hf id).computed c hl hn with he | ⟨k, m, hk, hout⟩
      · exact hne he
      · exact determining?_eq_none.1 hdet k m hk hout
    · exact determining?_eq_none.1 hdet k m (hrem.merges k m hk)

end Decomposition

namespace Solver

open Decomposition

/-- After any run, removing a cluster that was added does its chores to the end.  Then, before
anything is searched again, the clusters that were added are the same but for that one, and of the
merges those survive whose output was not computed from it; of a derivation moreover a surviving
merge consumes the hedgehog. -/
theorem removal_cascade (config : SolverConfig) (ops : List Operation) (id : ClusterId)
    (hl : (run config ops).decomposition.Live id)
    (hadd : (run config ops).decomposition.determining? id = none) :
    let d := (run config ops).decomposition
    let e := d.dropCluster id
    d.remove id = .ok e.process ∧ Unwinds (d.removal id) d e ∧
      (∀ c, (e.Live c ∧ e.determining? c = none) ↔
        (d.Live c ∧ d.determining? c = none) ∧ c ≠ id) ∧
      ∀ k m, e.merges.find? k = some m ↔ d.merges.find? k = some m ∧ ¬d.LeadsTo id m.output ∧
        (m.rule = .deriveHedgehog →
          ∃ k' m', e.merges.find? k' = some m' ∧ m.output ∈ m'.consumed) := by
  have hreach := reachable_run config ops
  have hs := hreach.sound
  have hf := hreach.lineage
  have hrule : ∀ m : Merge, m.rule.isDerivation = true ↔ m.rule = .deriveHedgehog := by
    simp [MergeRule.isDerivation]
  refine ⟨hs.remove_eq_ok.2 ⟨hl, hadd, rfl⟩, unwinds_dropCluster _ id, hs.added_dropCluster hf hadd,
    fun k m => ?_⟩
  rw [← hrule]
  constructor
  · intro hk
    have hk' := (hs.dropCluster hadd).2.merges k m hk
    exact ⟨hk', (hs.survives_iff hf hadd hk').1 hk⟩
  · rintro ⟨hk, hsurv⟩
    exact (hs.survives_iff hf hadd hk).2 hsurv

/-- An angle that was derived for two rigids goes with one of them, though it was not computed from
it. -/
theorem removal_cascade_derived :
    let d := (run {} [.add (.rigid (.ofList ["A", "B"])), .add (.rigid (.ofList ["B", "C"])),
      .add (.hedgehog "B" (.ofList ["A", "C", "D"]))]).decomposition
    let e := d.dropCluster ⟨1⟩
    (d.Live ⟨1⟩ ∧ d.determining? ⟨1⟩ = none) ∧
      d.merges.values.map Merge.rule = [.deriveHedgehog, .rigidsAngleBetween] ∧
      e.merges.values = [] ∧
      d.remove ⟨1⟩ = .ok e.process ∧ Unwinds (d.removal ⟨1⟩) d e ∧
      (∀ c, (e.Live c ∧ e.determining? c = none) ↔
        (d.Live c ∧ d.determining? c = none) ∧ c ≠ ⟨1⟩) ∧
      ∀ k m, e.merges.find? k = some m ↔ d.merges.find? k = some m ∧ ¬d.LeadsTo ⟨1⟩ m.output ∧
        (m.rule = .deriveHedgehog →
          ∃ k' m', e.merges.find? k' = some m' ∧ m.output ∈ m'.consumed) := by
  intro d e
  have hl : d.Live ⟨1⟩ := by
    show _ ∈ _
    decide +kernel
  have hadd : d.determining? ⟨1⟩ = none := by decide +kernel
  exact ⟨⟨hl, hadd⟩, by decide +kernel, by decide +kernel, removal_cascade {} _ ⟨1⟩ hl hadd⟩

end Solver

end PlanarSketch
