/-
The order of a propagation.

A propagation runs what is downstream of a change, layer by layer.  A method
waits for those that compute its inputs; each of them reports once for every
cell that leads from one to the other, so a method may be told too early, and
then it is told again.  What counts is its last run: it comes after the last
run of every method that it waits for.

* `nodup_explore`, `mem_explore_iff`: a search finds what is within reach, once;
* `Formed`: every cell is computed by one method at most, and methods have
  ranks (`Formed.exists_height`);
* `Awaits`, `Formed.mem_affected_iff`: what is downstream of a change;
* `count_foldl_release`: how often a method is released;
* `round`, `mem_round_succ`: the layers, and who is on the next one;
* `Formed.exists_lastRound`: every method has a last round, after those of
  the methods that it waits for;
* `Formed.runsLast_arrange`, `Formed.mem_arrange_iff`: so just the methods
  that are given run, and each runs last after all that it reads.
-/
import Mathlib.Data.Finset.Max
import Mathlib.Data.List.TakeWhile
import PlanarSketch.Proofs.Topology

namespace PlanarSketch

/-! ### Searches to the end -/

section Search

variable {V : Type} [DecidableEq V] {next : V → List V} {all seen queue : List V}

/-- The first vertex of the queue that is not passed over is new. -/
theorem not_mem_of_dropWhile {v : V} {rest : List V}
    (h : queue.dropWhile (· ∈ seen) = v :: rest) : v ∉ seen := by
  have hhead := List.head_dropWhile_not (fun x => decide (x ∈ seen)) (l := queue) (by simp [h])
  simpa [h] using hhead

/-- Nothing is accepted twice. -/
theorem nodup_explore (next : V → List V) (n : Nat) (queue : List V) (hseen : seen.Nodup) :
    (explore next n seen queue).Nodup := by
  induction n generalizing seen queue with
  | zero => exact hseen
  | succ n ih =>
    unfold explore
    split
    · exact hseen
    · rename_i v rest hdrop
      have hv := not_mem_of_dropWhile hdrop
      refine ih (rest ++ next v) (List.nodup_append.2 ⟨hseen, List.nodup_singleton v, ?_⟩)
      rintro u hu w hw rfl
      exact hv (List.mem_singleton.1 hw ▸ hu)

/-- A search with a step for every vertex ends with a set that contains the queue and is closed
under successors. -/
theorem explore_closed (hall : ∀ v ∈ all, ∀ w ∈ next v, w ∈ all) (n : Nat) (hnodup : seen.Nodup)
    (hseen : ∀ v ∈ seen, v ∈ all) (hqueue : ∀ v ∈ queue, v ∈ all)
    (hclosed : ∀ v ∈ seen, ∀ w ∈ next v, w ∈ seen ∨ w ∈ queue)
    (hn : all.length ≤ seen.length + n) :
    (∀ v, v ∈ seen ∨ v ∈ queue → v ∈ explore next n seen queue) ∧
      ∀ v ∈ explore next n seen queue, ∀ w ∈ next v, w ∈ explore next n seen queue := by
  induction n generalizing seen queue with
  | zero =>
    -- Everything has been seen.
    have hfull : ∀ v ∈ all, v ∈ seen := fun v hv =>
      ((List.subperm_of_subset hnodup hseen).perm_of_length_le hn).mem_iff.2 hv
    refine ⟨fun v hv => hv.elim id fun hv => hfull v (hqueue v hv), fun v hv w hw => ?_⟩
    exact hfull w (hall v (hseen v hv) w hw)
  | succ n ih =>
    unfold explore
    split
    · rename_i hnil
      have hdone : ∀ v ∈ queue, v ∈ seen := fun v hv => by
        simpa using List.dropWhile_eq_nil_iff.1 hnil v hv
      refine ⟨fun v hv => hv.elim id (hdone v), fun v hv w hw => ?_⟩
      exact (hclosed v hv w hw).elim id (hdone w)
    · rename_i v rest hdrop
      have hv := not_mem_of_dropWhile hdrop
      have hsplit : ∀ w ∈ queue, w ∈ seen ∨ w = v ∨ w ∈ rest := by
        intro w hw
        rw [← List.takeWhile_append_dropWhile (p := fun x => decide (x ∈ seen)) (l := queue), hdrop,
          List.mem_append, List.mem_cons] at hw
        exact hw.imp_left fun hw => by simpa using List.mem_takeWhile_imp hw
      have hmem : ∀ w, w = v ∨ w ∈ rest → w ∈ queue := fun w hw =>
        (List.dropWhile_sublist _).subset (hdrop ▸ List.mem_cons.2 hw)
      obtain ⟨hin, hnext⟩ := @ih (seen ++ [v]) (rest ++ next v)
        (List.nodup_append.2 ⟨hnodup, List.nodup_singleton v, fun a ha b hb => by
          rw [List.mem_singleton.1 hb]
          exact fun e => hv (e ▸ ha)⟩)
        (fun w hw => by
          rcases List.mem_append.1 hw with hw | hw
          · exact hseen w hw
          · exact hqueue w (hmem w (.inl (List.mem_singleton.1 hw))))
        (fun w hw => by
          rcases List.mem_append.1 hw with hw | hw
          · exact hqueue w (hmem w (.inr hw))
          · exact hall v (hqueue v (hmem v (.inl rfl))) w hw)
        (fun u hu w hw => by
          simp only [List.mem_append, List.mem_singleton] at hu ⊢
          rcases hu with hu | rfl
          · rcases hclosed u hu w hw with hw | hw
            · exact .inl (.inl hw)
            · rcases hsplit w hw with hw | hw | hw
              · exact .inl (.inl hw)
              · exact .inl (.inr hw)
              · exact .inr (.inl hw)
          · exact .inr (.inr hw))
        (by
          rw [List.length_append, List.length_singleton]
          omega)
      refine ⟨fun w hw => hin w ?_, hnext⟩
      simp only [List.mem_append, List.mem_singleton]
      rcases hw with hw | hw
      · exact .inl (.inl hw)
      · rcases hsplit w hw with hw | hw | hw
        · exact .inl (.inl hw)
        · exact .inl (.inr hw)
        · exact .inr (.inl hw)

/-- A search with a step for every vertex finds just what is within reach of the queue. -/
theorem mem_explore_iff (hall : ∀ v ∈ all, ∀ w ∈ next v, w ∈ all) (hqueue : ∀ v ∈ queue, v ∈ all)
    {n : Nat} (hn : all.length ≤ n) {v : V} : v ∈ explore next n [] queue ↔
      ∃ q ∈ queue, Relation.ReflTransGen (fun a b => b ∈ next a) q v := by
  constructor
  · refine fun hv => forall_mem_explore
      (P := fun v => ∃ q ∈ queue, Relation.ReflTransGen (fun a b => b ∈ next a) q v)
      (fun u hu w hw => ?_) n (by simp) (fun u hu => ⟨u, hu, .refl⟩) v hv
    obtain ⟨q, hq, hreach⟩ := hu
    exact ⟨q, hq, hreach.tail hw⟩
  · rintro ⟨q, hq, hreach⟩
    obtain ⟨hin, hnext⟩ := explore_closed hall n List.nodup_nil (by simp) hqueue (by simp)
      (by simpa using hn)
    induction hreach with
    | refl => exact hin q (.inr hq)
    | tail _ hstep ih => exact hnext _ ih _ hstep

end Search

namespace Dataflow

variable {V : Type} {g g' : Dataflow V} {a b c : CellId V} {j m : MethodId V} {i : Installed V}
  {among : List (MethodId V)}

/-! ### Formed dataflows -/

/-- The rank of every cell that a method writes is above those of the cells that it reads. -/
def Rises (g : Dataflow V) (rank : CellId V → Nat) : Prop :=
  ∀ m i, g.methods.find? m = some i → ∀ a ∈ i.inputs, ∀ b ∈ i.outputs, rank a < rank b

/-- Methods know cells in use and write to different ones, none leads back to itself, those that are
pending are there, and the topology is in step. -/
structure Formed (g : Dataflow V) : Prop where
  cells : ∀ m i, g.methods.find? m = some i → ∀ c ∈ i.inputs ++ i.outputs, c ∈ g.cells.keys
  once : ∀ m m' i i' c, g.methods.find? m = some i → g.methods.find? m' = some i' →
    c ∈ i.outputs → c ∈ i'.outputs → m = m'
  distinct : ∀ m i, g.methods.find? m = some i → i.outputs.Nodup
  ranked : ∃ rank, g.Rises rank
  pending : ∀ m ∈ g.pending, m ∈ g.methods.keys
  charted : g.Charted

theorem mem_followers : m ∈ g.followers j ↔ ∃ i i' c, g.methods.find? j = some i ∧
    g.methods.find? m = some i' ∧ c ∈ i.outputs ∧ c ∈ i'.inputs := by
  unfold followers
  rw [List.mem_flatMap]
  constructor
  · rintro ⟨c, hc, hm⟩
    obtain ⟨i, hi, hc⟩ := mem_outputs hc
    obtain ⟨i', hi', hc'⟩ := mem_consumers.1 hm
    exact ⟨i, i', c, hi, hi', hc, hc'⟩
  · rintro ⟨i, i', c, hi, hi', hc, hc'⟩
    refine ⟨c, ?_, mem_consumers.2 ⟨i', hi', hc'⟩⟩
    rw [outputs, hi]
    exact hc

theorem Formed.determining?_eq_some (h : g.Formed) : g.determining? c = some m ↔
    ∃ i, g.methods.find? m = some i ∧ c ∈ i.outputs := by
  refine ⟨find?_of_determining?, ?_⟩
  rintro ⟨i, hi, hc⟩
  cases hd : g.determining? c with
  | none =>
    have hnone := List.find?_eq_none.1 (Option.map_eq_none_iff.1 hd) (m, i)
      (Registry.find?_eq_some.1 hi)
    exact absurd hc (by simpa using hnone)
  | some m' =>
    obtain ⟨i', hi', hc'⟩ := find?_of_determining? hd
    rw [h.once m' m i' i c hi' hi hc' hc]

/-- Methods have ranks that rise from each to its followers. -/
theorem Formed.exists_height (h : g.Formed) :
    ∃ height : MethodId V → Nat, ∀ j m, m ∈ g.followers j → height j < height m := by
  obtain ⟨rank, hrank⟩ := h.ranked
  refine ⟨fun m => (g.inputs m).toFinset.sup fun a => rank a + 1, fun j m hm => ?_⟩
  obtain ⟨i, i', c, hi, hi', hc, hc'⟩ := mem_followers.1 hm
  -- The rank of the cell between the two separates them.
  have hj : (g.inputs j).toFinset.sup (fun a => rank a + 1) ≤ rank c := by
    refine Finset.sup_le fun a ha => ?_
    rw [List.mem_toFinset, inputs, hi] at ha
    exact hrank j i hi a ha c hc
  have hcm : rank c + 1 ≤ (g.inputs m).toFinset.sup fun a => rank a + 1 := by
    refine Finset.le_sup (f := fun a => rank a + 1) ?_
    rw [List.mem_toFinset, inputs, hi']
    exact hc'
  exact Nat.lt_of_le_of_lt hj hcm

/-! ### What is affected -/

/-- The method is new or reads a changed cell, or it follows such a method. -/
inductive Awaits (g : Dataflow V) : MethodId V → Prop
  | pending {m : MethodId V} (h : m ∈ g.pending) : Awaits g m
  | changed {m : MethodId V} {c : CellId V} (hc : c ∈ g.changed) (hm : m ∈ g.consumers c) :
      Awaits g m
  | follows {j m : MethodId V} (hj : Awaits g j) (hm : m ∈ g.followers j) : Awaits g m

theorem mem_keys_of_mem_followers (h : m ∈ g.followers j) : m ∈ g.methods.keys := by
  obtain ⟨-, i', -, -, hi', -, -⟩ := mem_followers.1 h
  exact Registry.mem_keys_of_find? hi'

theorem Formed.mem_keys_of_awaits (h : g.Formed) (hm : g.Awaits m) : m ∈ g.methods.keys := by
  match hm with
  | .pending hp => exact h.pending m hp
  | .changed _ hread =>
    obtain ⟨i, hi, -⟩ := mem_consumers.1 hread
    exact Registry.mem_keys_of_find? hi
  | .follows _ hf => exact mem_keys_of_mem_followers hf

theorem Formed.mem_affected_iff (h : g.Formed) : m ∈ g.affected ↔ g.Awaits m := by
  -- The search starts from installed methods, and there are steps for all of them.
  have hqueue : ∀ m ∈ g.pending.toList ++ g.changed.toList.flatMap g.consumers,
      m ∈ g.methods.keys := by
    intro m hm
    rcases List.mem_append.1 hm with hm | hm
    · exact h.pending m hm
    · obtain ⟨c, -, hm⟩ := List.mem_flatMap.1 hm
      obtain ⟨i, hi, -⟩ := mem_consumers.1 hm
      exact Registry.mem_keys_of_find? hi
  have hsize : g.methods.keys.length ≤ g.methods.size := Nat.le_of_eq (OrderedMap.length_keys _)
  unfold affected
  rw [mem_explore_iff (fun _ _ w hw => mem_keys_of_mem_followers hw) hqueue hsize]
  constructor
  · rintro ⟨q, hq, hreach⟩
    induction hreach with
    | refl =>
      rcases List.mem_append.1 hq with hq | hq
      · exact .pending hq
      · obtain ⟨c, hc, hq⟩ := List.mem_flatMap.1 hq
        exact .changed hc hq
    | tail _ hstep ih => exact .follows ih hstep
  · intro hm
    induction hm with
    | pending h => exact ⟨_, List.mem_append_left _ h, .refl⟩
    | changed hc hm => exact ⟨_, List.mem_append_right _ (List.mem_flatMap.2 ⟨_, hc, hm⟩), .refl⟩
    | follows _ hm ih =>
      obtain ⟨q, hq, hreach⟩ := ih
      exact ⟨q, hq, hreach.tail hm⟩

/-! ### Rounds -/

theorem find?_release (state : WaitCounts V × List (MethodId V)) (a m : MethodId V) :
    (release state a).1.find? m =
      if a = m then (state.1.find? m).map fun k => k - 1 else state.1.find? m := by
  unfold release
  cases ha : state.1.find? a with
  | none =>
    by_cases he : a = m
    · simp [← he, ha]
    · simp [he]
  | some k =>
    -- The count of `a` drops by one, whether or not it is ready.
    have hins : (state.1.insert a (k - 1)).find? m =
        if a = m then some (k - 1) else state.1.find? m := OrderedMap.find?_insert ..
    dsimp only
    by_cases he : a = m
    · subst he
      rw [if_pos rfl] at hins
      split <;> simp [hins, ha]
    · rw [if_neg he] at hins ⊢
      split <;> exact hins

/-- A method is released when it waits for one report at most. -/
theorem count_release (state : WaitCounts V × List (MethodId V)) (a m : MethodId V) :
    (release state a).2.count m = state.2.count m +
      if a = m then ((state.1.find? m).map fun k => 1 - (k - 1)).getD 0 else 0 := by
  unfold release
  cases ha : state.1.find? a with
  | none =>
    by_cases he : a = m
    · simp [← he, ha]
    · simp [he]
  | some k =>
    -- It joins the ready ones if nothing is left to wait for.
    by_cases hk : k - 1 = 0
    · by_cases he : a = m
      · subst he
        simp [hk, ha]
      · simp [hk, he]
    · have hnone : 1 - (k - 1) = 0 := by omega
      by_cases he : a = m
      · subst he
        simp [hk, ha, hnone]
      · simp [hk, he]

theorem find?_foldl_release (l : List (MethodId V)) (state : WaitCounts V × List (MethodId V)) :
    (l.foldl release state).1.find? m = (state.1.find? m).map fun k => k - l.count m := by
  induction l generalizing state with
  | nil => simp
  | cons a rest ih =>
    rw [List.foldl_cons, ih, find?_release]
    by_cases he : a = m
    · simp [he, Function.comp_def, Nat.sub_sub, Nat.add_comm]
    · simp [he]

/-- A method is released by the last report that it waits for and by every later one. -/
theorem count_foldl_release (l : List (MethodId V)) (state : WaitCounts V × List (MethodId V)) :
    (l.foldl release state).2.count m =
      state.2.count m + ((state.1.find? m).map fun k => l.count m - (k - 1)).getD 0 := by
  induction l generalizing state with
  | nil => cases h : state.1.find? m <;> simp
  | cons a rest ih =>
    rw [List.foldl_cons, ih, count_release, find?_release]
    by_cases he : a = m
    · subst he
      cases h : state.1.find? a with
      | none => simp
      | some k =>
        simp only [if_true, Option.map_some, Option.getD_some, List.count_cons_self]
        omega
    · simp [he]

/-- A method is released if it is told, and in the end as often as it has to be. -/
theorem mem_foldl_release (l : List (MethodId V)) (state : WaitCounts V × List (MethodId V)) :
    m ∈ (l.foldl release state).2 ↔
      m ∈ state.2 ∨ m ∈ l ∧ ∃ k, state.1.find? m = some k ∧ k ≤ l.count m := by
  rw [← List.count_pos_iff, count_foldl_release, ← List.count_pos_iff, ← List.count_pos_iff]
  cases h : state.1.find? m with
  | none => simp
  | some k =>
    simp only [Option.map_some, Option.getD_some, Option.some.injEq, exists_eq_left']
    omega

/-- How many predecessors each method waits for at the start. -/
def firstCounts (g : Dataflow V) (among : List (MethodId V)) : WaitCounts V :=
  .ofList (among.map fun m => (m, (g.predecessors among m).size))

/-- What is left to wait for, and who is ready, after a number of rounds. -/
def stage (g : Dataflow V) (counts : WaitCounts V) (ready : List (MethodId V)) :
    Nat → WaitCounts V × List (MethodId V)
  | 0 => (counts, ready)
  | n + 1 => g.nextReady (g.stage counts ready n).1 (g.stage counts ready n).2

/-- The methods that run in a round. -/
def round (g : Dataflow V) (among : List (MethodId V)) (n : Nat) : List (MethodId V) :=
  (g.stage (g.firstCounts among) (among.filter fun m => (g.predecessors among m).isEmpty) n).2

theorem stage_succ' (counts : WaitCounts V) (ready : List (MethodId V)) (n : Nat) :
    g.stage counts ready (n + 1) =
      g.stage (g.nextReady counts ready).1 (g.nextReady counts ready).2 n := by
  induction n with
  | zero => rfl
  | succ n ih =>
    rw [stage, ih]
    rfl

theorem layers_eq (n : Nat) (counts : WaitCounts V) (ready : List (MethodId V)) :
    g.layers n counts ready = (List.range n).flatMap fun t => (g.stage counts ready t).2 := by
  induction n generalizing counts ready with
  | zero => rfl
  | succ n ih =>
    rw [layers, List.range_succ_eq_map, List.flatMap_cons, List.flatMap_map]
    simp only [ih, stage_succ']
    rfl

theorem arrange_eq (g : Dataflow V) (among : List (MethodId V)) :
    g.arrange among = (List.range among.length).flatMap (g.round among) :=
  layers_eq _ _ _

theorem find?_firstCounts (g : Dataflow V) (among : List (MethodId V)) (m : MethodId V) :
    (g.firstCounts among).find? m =
      if m ∈ among then some (g.predecessors among m).size else none := by
  have hfold : ∀ (l : List (MethodId V)) (counts : WaitCounts V),
      ((l.map fun m => (m, (g.predecessors among m).size)).foldl
        (fun counts e => counts.insert e.1 e.2) counts).find? m =
          if m ∈ l then some (g.predecessors among m).size else counts.find? m := by
    intro l
    induction l with
    | nil => exact fun counts => rfl
    | cons a rest ih =>
      intro counts
      rw [List.map_cons, List.foldl_cons, ih, OrderedMap.find?_insert]
      by_cases he : a = m
      · simp [he]
      · simp [he, Ne.symm he]
  exact hfold among .empty

/-- The methods that run before a round. -/
def earlier (g : Dataflow V) (among : List (MethodId V)) (n : Nat) : List (MethodId V) :=
  (List.range n).flatMap (g.round among)

theorem mem_earlier {n : Nat} : m ∈ g.earlier among n ↔ ∃ t < n, m ∈ g.round among t := by
  simp [earlier]

theorem earlier_succ (n : Nat) :
    g.earlier among (n + 1) = g.earlier among n ++ g.round among n := by
  simp [earlier, List.range_succ]

/-- A method that has been told by all that ran still waits for the rest. -/
theorem find?_stage (g : Dataflow V) (among : List (MethodId V)) (m : MethodId V) (n : Nat) :
    (g.stage (g.firstCounts among) (among.filter fun m => (g.predecessors among m).isEmpty)
      n).1.find? m = if m ∈ among then some ((g.predecessors among m).size -
        ((g.earlier among n).flatMap g.followers).count m) else none := by
  induction n with
  | zero => simp [stage, earlier, find?_firstCounts]
  | succ n ih =>
    rw [stage, nextReady, find?_foldl_release, ih, earlier_succ, List.flatMap_append,
      List.count_append]
    split
    · rw [Option.map_some, Nat.sub_sub]
      rfl
    · rfl

/-- A method runs in the next round if it is told in this one and has been told as often as it has
predecessors. -/
theorem mem_round_succ (n : Nat) : m ∈ g.round among (n + 1) ↔ m ∈ among ∧
    (∃ j ∈ g.round among n, m ∈ g.followers j) ∧ (g.predecessors among m).size ≤
      ((g.earlier among (n + 1)).flatMap g.followers).count m := by
  unfold round
  rw [stage, nextReady, mem_foldl_release, List.mem_flatMap, find?_stage, earlier_succ,
    List.flatMap_append, List.count_append]
  by_cases hm : m ∈ among
  · simp only [hm, if_true, true_and, List.not_mem_nil, false_or, Option.some.injEq,
      exists_eq_left', round]
    refine and_congr_right fun _ => ?_
    omega
  · simp [hm]

/-- Whatever runs later was told by what ran before. -/
theorem exists_of_mem_round_succ {n : Nat} (h : m ∈ g.round among (n + 1)) :
    ∃ j ∈ g.round among n, m ∈ g.followers j :=
  List.mem_flatMap.1 (mem_nextReady h)

theorem mem_round_zero : m ∈ g.round among 0 ↔ m ∈ among ∧ (g.predecessors among m).size = 0 := by
  show m ∈ among.filter _ ↔ _
  rw [List.mem_filter, OrderedSet.isEmpty, List.isEmpty_iff, OrderedSet.size,
    List.length_eq_zero_iff]

/-- A method follows those that write its inputs. -/
theorem Formed.mem_followers_iff (h : g.Formed) :
    m ∈ g.followers j ↔ ∃ c ∈ g.inputs m, g.determining? c = some j := by
  rw [mem_followers]
  simp only [h.determining?_eq_some]
  constructor
  · rintro ⟨i, i', c, hi, hi', hout, hin⟩
    exact ⟨c, by rw [inputs, hi']; exact hin, i, hi, hout⟩
  · rintro ⟨c, hc, i, hi, hout⟩
    unfold inputs at hc
    split at hc
    · rename_i i' hi'
      exact ⟨i, i', c, hi, hi', hout, hc⟩
    · cases hc

theorem Formed.mem_predecessors (h : g.Formed) : j ∈ g.predecessors among m ↔
    j ∈ among ∧ m ∈ g.followers j := by
  unfold predecessors
  rw [OrderedSet.mem_ofList, List.mem_filter, List.mem_filterMap, decide_eq_true_eq, and_comm,
    h.mem_followers_iff]

/-- Each of several different methods that have run has told its followers. -/
theorem length_le_count_followers {told : List (MethodId V)} {ran : List (MethodId V)}
    (hnodup : told.Nodup) (hran : ∀ j ∈ told, j ∈ ran) (hm : ∀ j ∈ told, m ∈ g.followers j) :
    told.length ≤ (ran.flatMap g.followers).count m := by
  have hsub : told.length ≤ (ran.filter fun j => m ∈ g.followers j).length := by
    refine (List.subperm_of_subset hnodup fun j hj => ?_).length_le
    exact List.mem_filter.2 ⟨hran j hj, decide_eq_true (hm j hj)⟩
  refine Nat.le_trans hsub ?_
  clear hsub hran
  induction ran with
  | nil => simp
  | cons a rest ih =>
    rw [List.flatMap_cons, List.count_append, List.filter_cons]
    split
    · rename_i ha
      have hpos : 0 < (g.followers a).count m := List.count_pos_iff.2 (of_decide_eq_true ha)
      rw [List.length_cons]
      omega
    · omega

/-! ### Last rounds -/

/-- A method runs last after all that it waits for. -/
structure LastRound (g : Dataflow V) (among : List (MethodId V)) (m : MethodId V) (t : Nat) :
    Prop where
  runs : m ∈ g.round among t
  last : ∀ n, m ∈ g.round among n → n ≤ t
  after : ∀ n, ∀ j ∈ g.round among n, m ∈ g.followers j → n < t

/-- Only the methods that are given run. -/
theorem mem_among_of_mem_round {n : Nat} (h : m ∈ g.round among n) : m ∈ among := by
  cases n with
  | zero => exact (mem_round_zero.1 h).1
  | succ n => exact ((mem_round_succ n).1 h).1

/-- Every method has a last round, after those of its predecessors. -/
theorem Formed.exists_lastRound (h : g.Formed) (hm : m ∈ among) :
    ∃ t, g.LastRound among m t := by
  obtain ⟨height, hheight⟩ := h.exists_height
  induction hn : height m using Nat.strongRecOn generalizing m with
  | ind n ih =>
    have hpred : ∀ j ∈ g.predecessors among m, ∃ t, g.LastRound among j t := fun j hj =>
      have hj := h.mem_predecessors.1 hj
      ih (height j) (hn ▸ hheight j m hj.2) hj.1 rfl
    have htold : ∀ {n j}, j ∈ g.round among n → m ∈ g.followers j → j ∈ g.predecessors among m :=
      fun hj hf => h.mem_predecessors.2 ⟨mem_among_of_mem_round hj, hf⟩
    by_cases hsize : (g.predecessors among m).size = 0
    · -- Nobody tells it, so it runs in the first round only.
      have hnone : ∀ n j, j ∈ g.round among n → m ∉ g.followers j := by
        intro n j hj hf
        have hmem := htold hj hf
        rw [← OrderedSet.mem_toList, List.length_eq_zero_iff.1 hsize] at hmem
        cases hmem
      refine ⟨0, mem_round_zero.2 ⟨hm, hsize⟩, fun n hr => ?_, fun n j hj hf => ?_⟩
      · cases n with
        | zero => exact Nat.le_refl 0
        | succ n =>
          obtain ⟨j, hj, hf⟩ := exists_of_mem_round_succ hr
          exact absurd hf (hnone n j hj)
      · exact absurd hf (hnone n j hj)
    · choose! last hlast using hpred
      obtain ⟨first, hfirst⟩ := List.exists_mem_of_length_pos (Nat.pos_of_ne_zero hsize)
      obtain ⟨slow, hslow, hmax⟩ := Finset.exists_max_image (g.predecessors among m).toList.toFinset
        last ⟨first, List.mem_toFinset.2 hfirst⟩
      rw [List.mem_toFinset] at hslow
      have hle : ∀ j ∈ g.predecessors among m, last j ≤ last slow := fun j hj =>
        hmax j (List.mem_toFinset.2 hj)
      -- When the slowest predecessor has run for the last time, all have told it.
      refine ⟨last slow + 1, (mem_round_succ _).2 ⟨hm, ⟨slow, (hlast slow hslow).runs, ?_⟩, ?_⟩,
        fun n hr => ?_, fun n j hj hf => ?_⟩
      · exact (h.mem_predecessors.1 hslow).2
      · refine length_le_count_followers (g.predecessors among m).nodup (fun j hj => ?_) fun j hj =>
          (h.mem_predecessors.1 hj).2
        exact mem_earlier.2 ⟨last j, Nat.lt_succ_of_le (hle j hj), (hlast j hj).runs⟩
      · cases n with
        | zero => exact Nat.zero_le _
        | succ n =>
          obtain ⟨j, hj, hf⟩ := exists_of_mem_round_succ hr
          have hmem := htold hj hf
          exact Nat.succ_le_succ (Nat.le_trans ((hlast j hmem).last n hj) (hle j hmem))
      · have hmem := htold hj hf
        exact Nat.lt_succ_of_le (Nat.le_trans ((hlast j hmem).last n hj) (hle j hmem))

/-- A round is preceded by as many methods that lead to it, so there are no more rounds than
methods. -/
theorem Formed.round_lt (h : g.Formed) {t : Nat} (hm : m ∈ g.round among t) :
    t < among.length := by
  obtain ⟨height, hheight⟩ := h.exists_height
  -- Every round is entered from the one before, and heights rise along the way.
  have hchain : ∀ t m, m ∈ g.round among t → ∃ chain : List (MethodId V), chain.Nodup ∧
      chain.length = t + 1 ∧ ∀ j ∈ chain, j ∈ among ∧ height j ≤ height m := by
    intro t
    induction t with
    | zero =>
      intro m hm
      refine ⟨[m], List.nodup_singleton m, rfl, fun j hj => ?_⟩
      rw [List.mem_singleton.1 hj]
      exact ⟨mem_among_of_mem_round hm, Nat.le_refl _⟩
    | succ t ih =>
      intro m hm
      obtain ⟨j, hj, hf⟩ := exists_of_mem_round_succ hm
      obtain ⟨chain, hnodup, hlength, hall⟩ := ih j hj
      have hlt := hheight j m hf
      refine ⟨m :: chain, List.nodup_cons.2 ⟨fun hmem => ?_, hnodup⟩, by simp [hlength],
        fun k hk => ?_⟩
      · -- The new method stands higher than all of the chain, so it is none of them.
        exact absurd hlt (Nat.not_lt.2 (hall m hmem).2)
      · rcases List.mem_cons.1 hk with rfl | hk
        · exact ⟨mem_among_of_mem_round hm, Nat.le_refl _⟩
        · exact ⟨(hall k hk).1, Nat.le_trans (hall k hk).2 (Nat.le_of_lt hlt)⟩
  obtain ⟨chain, hnodup, hlength, hall⟩ := hchain t m hm
  have hle := (List.subperm_of_subset hnodup fun j hj => (hall j hj).1).length_le
  omega

/-! ### The schedule -/

/-- The last run of the method comes after all runs of the methods that it follows. -/
def RunsLast (g : Dataflow V) (l : List (MethodId V)) (m : MethodId V) : Prop :=
  ∃ before after, l = before ++ m :: after ∧ ∀ j ∈ after, j ≠ m ∧ m ∉ g.followers j

/-- The first part of an order that has all runs of a method will do. -/
theorem RunsLast.of_append {ran rest : List (MethodId V)} (h : g.RunsLast (ran ++ rest) m)
    (hm : m ∉ rest) : g.RunsLast ran m := by
  obtain ⟨before, after, heq, hafter⟩ := h
  rcases List.append_eq_append_iff.1 heq with ⟨l, rfl, rfl⟩ | ⟨l, rfl, hl⟩
  · exact absurd (List.mem_append_right l List.mem_cons_self) hm
  · match l, hl with
    | [], hl =>
      obtain rfl : m :: after = rest := hl
      exact absurd List.mem_cons_self hm
    | k :: l, hl =>
      obtain ⟨rfl, rfl⟩ := List.cons.inj hl
      exact ⟨before, l, rfl, fun j hj => hafter j (List.mem_append_left _ hj)⟩

theorem LastRound.runsLast {t : Nat} (h : g.LastRound among m t) (ht : t < among.length) :
    g.RunsLast (g.arrange among) m := by
  obtain ⟨after, before, hround, hlast⟩ :=
    List.eq_append_cons_of_mem (List.mem_reverse.2 h.runs)
  -- Cut the arrangement at the last occurrence in its round and at the later rounds.
  have hsplit : g.round among t = before.reverse ++ m :: after.reverse := by
    rw [← List.reverse_reverse (g.round among t), hround]
    simp
  obtain ⟨rest, hrest⟩ : ∃ rest, List.range among.length = List.range t ++ t :: rest := by
    obtain ⟨k, hk⟩ := Nat.exists_eq_add_of_lt ht
    refine ⟨(List.range k).map fun n => t + 1 + n, ?_⟩
    rw [hk, show t + k + 1 = (t + 1) + k by omega, List.range_add, List.range_succ]
    simp
  have hlate : ∀ n ∈ rest, t < n := by
    intro n hn
    have hsorted := List.pairwise_lt_range (n := among.length)
    rw [hrest, List.pairwise_append] at hsorted
    exact List.rel_of_pairwise_cons hsorted.2.1 hn
  refine ⟨(List.range t).flatMap (g.round among) ++ before.reverse,
    after.reverse ++ rest.flatMap (g.round among), ?_, fun j hj => ?_⟩
  · rw [arrange_eq, hrest, List.flatMap_append, List.flatMap_cons, hsplit]
    simp
  · rcases List.mem_append.1 hj with hj | hj
    · -- Later in the same round: by the choice of the occurrence and since followers come later.
      have hmem : j ∈ g.round among t := by
        rw [hsplit]
        exact List.mem_append_right _ (List.mem_cons_of_mem _ hj)
      refine ⟨?_, fun hf => Nat.lt_irrefl t (h.after t j hmem hf)⟩
      rintro rfl
      exact hlast (List.mem_reverse.1 hj)
    · obtain ⟨n, hn, hj⟩ := List.mem_flatMap.1 hj
      -- In a later round: this was the last one with the method.
      have hlt := hlate n hn
      refine ⟨?_, fun hf => Nat.lt_asymm hlt (h.after n j hj hf)⟩
      rintro rfl
      exact Nat.not_le.2 hlt (h.last n hj)

/-- Every method that is given runs last after all that it follows. -/
theorem Formed.runsLast_arrange (h : g.Formed) (hm : m ∈ among) :
    g.RunsLast (g.arrange among) m := by
  obtain ⟨t, ht⟩ := h.exists_lastRound hm
  exact ht.runsLast (h.round_lt ht.runs)

/-- Just the methods that are given run. -/
theorem Formed.mem_arrange_iff (h : g.Formed) : m ∈ g.arrange among ↔ m ∈ among := by
  constructor
  · intro hm
    rw [arrange_eq, List.mem_flatMap] at hm
    obtain ⟨t, -, hm⟩ := hm
    exact mem_among_of_mem_round hm
  · intro hm
    obtain ⟨before, after, heq, -⟩ := h.runsLast_arrange hm
    rw [heq]
    exact List.mem_append_right _ List.mem_cons_self

theorem Formed.followers_affected (h : g.Formed) :
    ∀ j ∈ g.affected, ∀ m ∈ g.followers j, m ∈ g.affected := fun _ hj _ hm =>
  h.mem_affected_iff.2 (.follows (h.mem_affected_iff.1 hj) hm)

/-- Whatever is affected runs last after all that it follows. -/
theorem Formed.runsLast_schedule (h : g.Formed) (hm : m ∈ g.affected) :
    g.RunsLast g.schedule m := h.runsLast_arrange hm

/-- Nothing else runs. -/
theorem Formed.mem_affected_of_mem_schedule (h : g.Formed) (hm : m ∈ g.schedule) :
    m ∈ g.affected := h.mem_arrange_iff.1 hm

end Dataflow

end PlanarSketch
