/-
How often a method runs.

A method should run once, after all that compute its inputs.  It waits for as
many reports as there are methods that it waits for, but is told once for every
cell that leads from one of them to it, and each report after the last awaited
one releases it again.  So its runs, and the methods that it waits for, are one
more in number than the reports that it gets, and every method runs once just
when no two cells lead from one method to another.

* `links`, `count_followers`: the cells that lead from one method to another;
* `count_earlier_succ`, `Formed.count_arrange`: how often a method runs;
* `Sorts`, `Formed.sorts_arrange_iff`: when an arrangement is in order;
* `performed`, `executeAll_performed`: the methods that a propagation runs;
* `arrangement_runCalls`: what holds after any calls.
-/
import Mathlib.Algebra.BigOperators.Group.Finset.Basic
import Mathlib.Algebra.Order.BigOperators.Group.List
import Mathlib.Algebra.Order.Group.Nat
import PlanarSketch.Proofs.Installation

namespace PlanarSketch.Dataflow

variable {V : Type} {g g' : Dataflow V} {j m : MethodId V} {among l : List (MethodId V)}

/-! ### Reports -/

/-- How many cells lead from one method to another. -/
def links (g : Dataflow V) (j m : MethodId V) : Nat :=
  ((g.outputs j).filter fun c => (g.inputs m).contains c).length

theorem count_consumers (g : Dataflow V) (c : CellId V) (m : MethodId V) :
    (g.consumers c).count m = if c ∈ g.inputs m then 1 else 0 := by
  have hmem : m ∈ g.consumers c ↔ c ∈ g.inputs m := by
    rw [mem_consumers, inputs]
    split <;> simp_all
  have hnodup : (g.consumers c).Nodup := g.methods.nodup_keys.sublist (List.filter_sublist.map _)
  split
  · rename_i hc
    exact List.count_eq_one_of_mem hnodup (hmem.2 hc)
  · rename_i hc
    exact List.count_eq_zero_of_not_mem fun hm => hc (hmem.1 hm)

/-- A method reports to another once for every cell that leads there. -/
theorem count_followers (g : Dataflow V) (j m : MethodId V) :
    (g.followers j).count m = g.links j m := by
  unfold followers links
  induction g.outputs j with
  | nil => rfl
  | cons c rest ih =>
    rw [List.flatMap_cons, List.count_append, ih, count_consumers, List.filter_cons]
    by_cases hc : c ∈ g.inputs m
    · simp [hc, Nat.add_comm]
    · simp [hc]

theorem links_pos_iff : 0 < g.links j m ↔ m ∈ g.followers j := by
  rw [← count_followers, List.count_pos_iff]

/-- The reports are those of the different methods that ran, each as often as it ran. -/
theorem count_flatMap_followers {told : List (MethodId V)} (hnodup : told.Nodup)
    (htold : ∀ j ∈ l, m ∈ g.followers j → j ∈ told) :
    (l.flatMap g.followers).count m = (told.map fun j => l.count j * g.links j m).sum := by
  rw [List.count_flatMap, ← List.sum_toFinset _ hnodup]
  have hone : (List.count m ∘ g.followers) = fun j => g.links j m :=
    funext fun j => count_followers g j m
  rw [hone, Finset.sum_list_map_count]
  simp only [Nat.nsmul_eq_mul]
  -- A method outside `told` either did not run or has no cell that leads to `m`.
  have hzero : ∀ j, j ∉ l ∨ j ∉ told → l.count j * g.links j m = 0 := by
    rintro j (hj | hj)
    · rw [List.count_eq_zero_of_not_mem hj, Nat.zero_mul]
    · by_cases hran : j ∈ l
      · have hnone : g.links j m = 0 :=
          Nat.eq_zero_of_not_pos fun hpos => hj (htold j hran (links_pos_iff.1 hpos))
        rw [hnone, Nat.mul_zero]
      · rw [List.count_eq_zero_of_not_mem hran, Nat.zero_mul]
  have hleft : l.toFinset ⊆ l.toFinset ∪ told.toFinset := Finset.subset_union_left
  have hright : told.toFinset ⊆ l.toFinset ∪ told.toFinset := Finset.subset_union_right
  rw [Finset.sum_subset hleft fun j _ hj => hzero j (.inl (mt List.mem_toFinset.2 hj)),
    ← Finset.sum_subset hright fun j _ hj => hzero j (.inr (mt List.mem_toFinset.2 hj))]

/-! ### Runs -/

/-- In the rounds up to the next one, a method that is given has run once for each report from the
last awaited one on. -/
theorem count_earlier_succ (hnodup : among.Nodup) (hm : m ∈ among) (n : Nat) :
    (g.earlier among (n + 1)).count m = (if (g.predecessors among m).size = 0 then 1 else 0) +
      (((g.earlier among n).flatMap g.followers).count m -
        ((g.predecessors among m).size - 1)) := by
  induction n with
  | zero =>
    have hempty : (g.predecessors among m).isEmpty = true ↔ (g.predecessors among m).size = 0 := by
      rw [OrderedSet.isEmpty, List.isEmpty_iff, OrderedSet.size, List.length_eq_zero_iff]
    -- The first round takes those that follow none, once each.
    have hround : (g.earlier among 1).count m =
        (among.filter fun m => (g.predecessors among m).isEmpty).count m := by
      simp [earlier, round, stage]
    rw [hround]
    simp only [earlier, List.range_zero, List.flatMap_nil, List.count_nil, Nat.zero_sub,
      Nat.add_zero]
    split
    · rename_i hsize
      rw [List.count_filter (p := fun m => (g.predecessors among m).isEmpty) (hempty.2 hsize),
        List.count_eq_one_of_mem hnodup hm]
    · rename_i hsize
      exact List.count_eq_zero_of_not_mem fun hf => hsize (hempty.1 (List.mem_filter.1 hf).2)
  | succ n ih =>
    -- A later round takes a method once for each report beyond the last one that it waits for.
    have hstep : (g.round among (n + 1)).count m =
        ((g.round among n).flatMap g.followers).count m - ((g.predecessors among m).size -
          ((g.earlier among n).flatMap g.followers).count m - 1) := by
      rw [round, stage, nextReady, count_foldl_release, find?_stage, if_pos hm]
      simp [round]
    rw [earlier_succ, List.count_append, ih, hstep, earlier_succ, List.flatMap_append,
      List.count_append]
    omega

/-- The runs of a method, together with those that it waits for, are one more than the reports that
it gets: each of those gives one for every link and every run. -/
theorem Formed.count_arrange (h : g.Formed) (hnodup : among.Nodup) (hm : m ∈ among) :
    (g.arrange among).count m + (g.predecessors among m).size =
      ((g.predecessors among m).toList.map fun j =>
        (g.arrange among).count j * g.links j m).sum + 1 := by
  have htold : ∀ j ∈ g.arrange among, m ∈ g.followers j → j ∈ (g.predecessors among m).toList :=
    fun j hj hf => h.mem_predecessors.2 ⟨h.mem_arrange_iff.1 hj, hf⟩
  -- No round comes after as many as there are methods.
  have hround : g.round among among.length = [] := List.eq_nil_iff_forall_not_mem.2 fun k hk =>
    Nat.lt_irrefl _ (h.round_lt hk)
  have hcount := count_earlier_succ (g := g) hnodup hm among.length
  rw [earlier_succ, hround, List.append_nil, earlier, ← arrange_eq,
    count_flatMap_followers (g.predecessors among m).nodup htold] at hcount
  have hle := length_le_count_followers (m := m) (g.predecessors among m).nodup
    (fun j hj => h.mem_arrange_iff.2 (h.mem_predecessors.1 hj).1)
    fun j hj => (h.mem_predecessors.1 hj).2
  rw [count_flatMap_followers (g.predecessors among m).nodup htold] at hle
  change (g.predecessors among m).size ≤ _ at hle
  by_cases hsize : (g.predecessors among m).size = 0
  · rw [OrderedSet.size, List.length_eq_zero_iff] at hsize
    rw [hcount, OrderedSet.size, hsize]
    rfl
  · rw [hcount, if_neg hsize]
    omega

/-! ### Order -/

/-- The methods of a set in an order in which none stands before one that writes an input of it. -/
structure Sorts (g : Dataflow V) (methods : OrderedSet (MethodId V)) (order : List (MethodId V)) :
    Prop where
  perm : order.Perm methods.toList
  after : order.Pairwise fun early late => ∀ c ∈ g.inputs early, g.determining? c ≠ some late

/-- No two cells lead from one method of the set to another. -/
def Unshared (g : Dataflow V) (methods : OrderedSet (MethodId V)) : Prop :=
  ∀ j ∈ methods, ∀ m ∈ methods, g.links j m ≤ 1

theorem Formed.count_arrange_of_unshared (h : g.Formed) {methods : OrderedSet (MethodId V)}
    (hone : g.Unshared methods) (hm : m ∈ methods) : (g.arrange methods.toList).count m = 1 := by
  obtain ⟨height, hheight⟩ := h.exists_height
  induction hn : height m using Nat.strongRecOn generalizing m with
  | ind n ih =>
    -- Each predecessor runs once and has one link.
    have hterm : ∀ j ∈ (g.predecessors methods.toList m).toList,
        (g.arrange methods.toList).count j * g.links j m = 1 := by
      intro j hj
      obtain ⟨hin, hf⟩ := h.mem_predecessors.1 hj
      rw [ih (height j) (hn ▸ hheight j m hf) hin rfl, Nat.one_mul]
      exact Nat.le_antisymm (hone j hin m hm) (links_pos_iff.2 hf)
    have hcount := h.count_arrange methods.nodup hm
    rw [List.map_congr_left hterm, List.map_const', List.sum_replicate, Nat.nsmul_eq_mul,
      Nat.mul_one, OrderedSet.size, Nat.add_comm] at hcount
    exact Nat.add_left_cancel hcount

theorem Formed.unshared_of_count_arrange (h : g.Formed) {methods : OrderedSet (MethodId V)}
    (hcount : ∀ m ∈ methods, (g.arrange methods.toList).count m = 1) : g.Unshared methods := by
  intro j hj m hm
  by_contra hmany
  have hf : m ∈ g.followers j := links_pos_iff.1 (by omega)
  -- The reports are more than the predecessors, so the method runs again.
  have hlt : ((g.predecessors methods.toList m).toList.map fun _ => 1).sum <
      ((g.predecessors methods.toList m).toList.map fun k =>
        (g.arrange methods.toList).count k * g.links k m).sum := by
    refine List.sum_lt_sum _ _ (fun k hk => ?_) ⟨j, h.mem_predecessors.2 ⟨hj, hf⟩, ?_⟩
    · obtain ⟨hin, hf⟩ := h.mem_predecessors.1 hk
      rw [hcount k hin, Nat.one_mul]
      exact links_pos_iff.2 hf
    · rw [hcount j hj, Nat.one_mul]
      omega
  have htotal := h.count_arrange methods.nodup hm
  rw [hcount m hm, OrderedSet.size] at htotal
  rw [List.map_const', List.sum_replicate, Nat.nsmul_eq_mul, Nat.mul_one] at hlt
  omega

/-- If each method stands once and comes last after all that it follows, none stands before one that
it follows. -/
theorem pairwise_of_runsLast (hnodup : l.Nodup) (hlast : ∀ m ∈ l, g.RunsLast l m) :
    l.Pairwise fun early late => early ∉ g.followers late := by
  induction l with
  | nil => exact .nil
  | cons a rest ih =>
    obtain ⟨ha, hrest⟩ := List.nodup_cons.1 hnodup
    refine List.pairwise_cons.2 ⟨?_, ih hrest fun m hm => ?_⟩
    · obtain ⟨before, after, heq, hafter⟩ := hlast a List.mem_cons_self
      match before, heq with
      | [], heq =>
        -- The first method is the last of its kind, so all that follow come after it.
        obtain rfl : rest = after := (List.cons.inj heq).2
        exact fun j hj => (hafter j hj).2
      | b :: before, heq =>
        exact absurd ((List.cons.inj heq).2 ▸ List.mem_append_right _ List.mem_cons_self) ha
    · obtain ⟨before, after, heq, hafter⟩ := hlast m (List.mem_cons_of_mem _ hm)
      match before, heq with
      | [], heq =>
        obtain rfl : a = m := (List.cons.inj heq).1
        exact absurd hm ha
      | b :: before, heq => exact ⟨before, after, (List.cons.inj heq).2, hafter⟩

/-- The arrangement of a set is in order, each method standing once, just when no two cells lead
from one of them to another. -/
theorem Formed.sorts_arrange_iff (h : g.Formed) (methods : OrderedSet (MethodId V)) :
    g.Sorts methods (g.arrange methods.toList) ↔ g.Unshared methods := by
  constructor
  · intro hsorts
    refine h.unshared_of_count_arrange fun m hm => ?_
    rw [hsorts.perm.count_eq]
    exact List.count_eq_one_of_mem methods.nodup hm
  · intro hone
    have hcount : ∀ m ∈ g.arrange methods.toList, (g.arrange methods.toList).count m = 1 :=
      fun m hm => h.count_arrange_of_unshared hone (h.mem_arrange_iff.1 hm)
    have hnodup : (g.arrange methods.toList).Nodup := List.nodup_iff_count_eq_one.2 hcount
    refine ⟨(List.perm_ext_iff_of_nodup hnodup methods.nodup).2 fun m => h.mem_arrange_iff, ?_⟩
    refine (pairwise_of_runsLast hnodup fun m hm =>
      h.runsLast_arrange (h.mem_arrange_iff.1 hm)).imp fun hno c hc hd => ?_
    exact hno (h.mem_followers_iff.2 ⟨c, hc, hd⟩)

/-! ### Propagations -/

/-- The affected methods. -/
def affectedSet (g : Dataflow V) : OrderedSet (MethodId V) :=
  ⟨g.affected, nodup_explore _ _ _ List.nodup_nil⟩

/-- The methods of a list that are run: all up to the first that fails. -/
def performed (g : Dataflow V) : List (MethodId V) → List (MethodId V)
  | [] => []
  | m :: rest =>
    match g.execute m with
    | .error _ => [m]
    | .ok g' => m :: g'.performed rest

/-- The methods that a propagation runs. -/
def propagationRuns (g : Dataflow V) : List (MethodId V) := g.settled.performed g.schedule

theorem performed_isPrefix (g : Dataflow V) (l : List (MethodId V)) : g.performed l <+: l := by
  induction l generalizing g with
  | nil => exact List.prefix_rfl
  | cons m rest ih =>
    unfold performed
    split
    · exact ⟨rest, rfl⟩
    · rename_i g' _
      exact List.prefix_cons_inj m |>.2 (ih g')

/-- What is left out has no part in what comes of it. -/
theorem executeAll_performed (g : Dataflow V) (l : List (MethodId V)) :
    g.executeAll (g.performed l) = g.executeAll l := by
  induction l generalizing g with
  | nil => rfl
  | cons m rest ih =>
    unfold performed
    cases he : g.execute m with
    | error e => simp [executeAll, he]
    | ok g' => simp [executeAll, he, ih]

/-- Without a failure all are run. -/
theorem performed_eq_of_executeAll (h : g.executeAll l = (.ok (), g')) : g.performed l = l := by
  induction l generalizing g with
  | nil => rfl
  | cons m rest ih =>
    obtain ⟨g₁, he, hrest⟩ := executeAll_cons h
    rw [performed, he]
    exact congrArg (m :: ·) (ih hrest)

theorem propagationRuns_eq (h : g.propagate.1 = .ok ()) : g.propagationRuns = g.schedule := by
  unfold propagate at h
  rcases hx : g.settled.executeAll g.schedule with ⟨_ | _, g'⟩
  · rw [hx] at h
    cases h
  · exact performed_eq_of_executeAll hx

/-- After any calls, whatever methods are given, just these are arranged, and each comes last after
all runs of those that it follows; how often it stands there is told by its links.  So they stand
there once each, after those that write their inputs, just when no two cells lead from one of them
to another.  A propagation runs the affected methods as they are arranged, until one fails, and to
run just these has the same outcome as to run through all that is scheduled. -/
theorem arrangement_runCalls (calls : List (Call V)) :
    let g := runCalls calls
    (∀ methods : OrderedSet (MethodId V),
      (∀ m, m ∈ g.arrange methods.toList ↔ m ∈ methods) ∧
      (∀ m ∈ methods, g.RunsLast (g.arrange methods.toList) m) ∧
      (∀ m ∈ methods,
        (g.arrange methods.toList).count m + (g.predecessors methods.toList m).size =
          ((g.predecessors methods.toList m).toList.map fun j =>
            (g.arrange methods.toList).count j * g.links j m).sum + 1) ∧
      (g.Sorts methods (g.arrange methods.toList) ↔ g.Unshared methods)) ∧
    (∀ m, m ∈ g.affectedSet ↔ g.Awaits m) ∧
    g.propagationRuns <+: g.arrange g.affectedSet.toList ∧
    g.settled.executeAll g.propagationRuns = g.settled.executeAll g.schedule ∧
    (g.Unshared g.affectedSet → g.propagationRuns.Nodup ∧ g.propagationRuns.Pairwise
      fun early late => ∀ c ∈ g.inputs early, g.determining? c ≠ some late) ∧
    (g.propagate.1 = .ok () → (g.Sorts g.affectedSet g.propagationRuns ↔
      g.Unshared g.affectedSet)) := by
  intro g
  have h : g.Formed := formed_runCalls calls
  have hruns : g.propagationRuns <+: g.arrange g.affectedSet.toList := performed_isPrefix ..
  refine ⟨fun methods => ⟨fun m => h.mem_arrange_iff, fun m hm => h.runsLast_arrange hm,
    fun m hm => h.count_arrange methods.nodup hm, h.sorts_arrange_iff methods⟩,
    fun m => h.mem_affected_iff, hruns, executeAll_performed .., fun hone => ?_, fun hp => ?_⟩
  · have hsorts := (h.sorts_arrange_iff g.affectedSet).2 hone
    exact ⟨(hsorts.perm.nodup_iff.2 g.affectedSet.nodup).sublist hruns.sublist,
      hsorts.after.sublist hruns.sublist⟩
  · rw [propagationRuns_eq hp]
    exact h.sorts_arrange_iff g.affectedSet

/-- The last method reads both outputs of the first and is told twice, so that it no longer waits
for the third.  It runs without what that computes, and then again. -/
theorem not_sorts_arrange :
    let calls : List (Call Nat) :=
      [.basic (.addCell "a" false (some 1)), .basic (.addCell "b" false none),
        .basic (.addCell "c" false none), .basic (.addCell "d" false none),
        .basic (.addCell "e" false (some 0)), .basic (.addCell "f" false none),
        .basic (.addMethod ⟨"split", fun args => .ok (args ++ args)⟩ [⟨1⟩] [⟨2⟩, ⟨3⟩]),
        .basic (.addMethod ⟨"copy", fun args => .ok args⟩ [⟨2⟩] [⟨4⟩]),
        .basic (.addMethod ⟨"copy", fun args => .ok args⟩ [⟨4⟩] [⟨5⟩]),
        .basic (.addMethod ⟨"sum", fun args => .ok [args.sum]⟩ [⟨2⟩, ⟨3⟩, ⟨5⟩] [⟨6⟩])]
    let g := runCalls calls
    g.affectedSet.toList = [⟨1⟩, ⟨2⟩, ⟨3⟩, ⟨4⟩] ∧ ⟨5⟩ ∈ g.inputs ⟨4⟩ ∧
      g.determining? ⟨5⟩ = some ⟨3⟩ ∧ g.propagate.1 = .ok () ∧
      g.propagationRuns = [⟨1⟩, ⟨2⟩, ⟨4⟩, ⟨3⟩, ⟨4⟩] ∧
      ¬g.Sorts g.affectedSet (g.arrange g.affectedSet.toList) := by
  intro calls g
  have hruns : g.arrange g.affectedSet.toList = [⟨1⟩, ⟨2⟩, ⟨4⟩, ⟨3⟩, ⟨4⟩] := by decide +kernel
  refine ⟨by decide +kernel, by decide +kernel, by decide +kernel, by decide +kernel,
    by decide +kernel, fun hsorts => ?_⟩
  -- Five runs are no permutation of four methods.
  have hlength := hsorts.perm.length_eq
  rw [hruns] at hlength
  exact absurd hlength (by decide +kernel)

end PlanarSketch.Dataflow
