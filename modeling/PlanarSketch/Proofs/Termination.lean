/-
The search for merges ends.

A search that succeeds puts two clusters on the worklist at most, so what has
to be bounded is the number of merges.  A merge may leave as many clusters on
the top level as before, or more; but then a hedgehog has gained an arm, or a
triangle of points is covered that was not.  The potential of a decomposition
adds all this up: two for every triple of points that is not covered, and for
every cluster on the top level one and the number of arms that it may gain.

* `Cluster.weight`, `uncovered`, `reserve`, `potential`: the measure;
* `Carried.covered`: what is covered stays covered;
* `Carried.potential_lt`: every merge lowers the potential;
* `Sound.worklist_processWithin`: with enough steps the worklist is emptied;
* `SearchEnds`: the bound on the steps is large enough.
-/
import PlanarSketch.Proofs.Runs

namespace PlanarSketch

namespace Cluster

variable {c o : Cluster} {n : Nat}

/-- One for the cluster and one for each arm that it may gain when there are `n` points. -/
def weight (n : Nat) : Cluster → Nat
  | .rigid _ => 1
  | .hedgehog _ arms => n - arms.size + 1
  | .balloon _ => 1

theorem weight_pos (n : Nat) (c : Cluster) : 0 < c.weight n := by
  cases c <;> exact Nat.succ_pos _

theorem weight_le (n : Nat) (c : Cluster) : c.weight n ≤ n + 1 := by
  cases c <;> simp only [weight] <;> omega

/-- A cluster that knows more weighs no more. -/
theorem Weaker.weight_le (h : c.Weaker o) (hc : c.Valid) : o.weight n ≤ c.weight n := by
  have hpos := weight_pos n c
  cases o with
  | rigid p => exact hpos
  | balloon p => exact hpos
  | hedgehog centre arms =>
    have hk : c.kind = .hedgehog := Decidable.byContradiction fun hk => h.kind_ne hc hk rfl
    obtain ⟨centre', arms', rfl⟩ := kind_eq_hedgehog_iff.1 hk
    have hsize := NameSet.size_le_of_subset h.arms_subset
    simp only [weight]
    omega

end Cluster

/-- All triples of names from a list. -/
def triples (names : List PointName) : List NameSet :=
  names.flatMap fun a => names.flatMap fun b => names.map fun c => .ofList [a, b, c]

theorem mem_triples {names : List PointName} {a b c : PointName} (ha : a ∈ names) (hb : b ∈ names)
    (hc : c ∈ names) : NameSet.ofList [a, b, c] ∈ triples names :=
  List.mem_flatMap.2 ⟨a, ha, List.mem_flatMap.2 ⟨b, hb, List.mem_map.2 ⟨c, hc, rfl⟩⟩⟩

theorem length_triples (names : List PointName) :
    (triples names).length = names.length * names.length * names.length := by
  simp only [triples, List.length_flatMap, List.length_map, List.map_const', List.sum_replicate_nat,
    Nat.mul_assoc]

namespace Decomposition

variable {d d' : Decomposition} {id out : ClusterId} {plan : Plan}

/-! ### Covered triangles -/

/-- A top-level cluster that is not consumed stays where it is. -/
theorem Carried.onTop (h : d.Carried plan out d') {p : Placed} (hp : d.OnTop p)
    (hn : .existing p.id ∉ plan.inputs) : d'.OnTop p := by
  obtain ⟨new, hgrown, -⟩ := h.grown
  exact ⟨h.mem_topLevel.2 (.inl ⟨hp.1, hn⟩), hgrown.clusters _ _ hp.2⟩

theorem Carried.onTop_output (h : d.Carried plan out d') : d'.OnTop ⟨out, plan.output⟩ :=
  ⟨h.mem_topLevel.2 (.inr rfl), h.output⟩

/-- What is on the top level after a merge was there before or is the output. -/
theorem Carried.onTop_cases (h : d.Carried plan out d') (hg : d.Grounded) {p : Placed}
    (hp : d'.OnTop p) : d.OnTop p ∨ p = ⟨out, plan.output⟩ := by
  obtain ⟨new, hgrown, -⟩ := h.grown
  rcases h.mem_topLevel.1 hp.1 with ⟨ht, -⟩ | he
  · exact .inl ⟨ht, (hgrown.cluster?_eq (hg.top _ ht)).1 hp.2⟩
  · exact .inr (hp.eq_of_id h.onTop_output he)

/-- A triangle that is covered stays covered. -/
theorem Carried.covered (h : d.Carried plan out d') (hg : d.Grounded) (hp : plan.Sound d)
    {t : NameSet} (ht : d.covered t = true) : d'.covered t = true := by
  obtain ⟨p, hon, hk, hv⟩ := covered_iff.1 ht
  by_cases hin : .existing p.id ∈ plan.inputs
  · have hw := hp.weaker_of_onTop hon hin
    have hvalid := hg.valid _ _ hon.2
    refine covered_iff.2 ⟨_, h.onTop_output, hw.kind_ne hvalid hk, fun v hvt => ?_⟩
    exact hw.mem hvalid (hv v hvt)
  · exact covered_iff.2 ⟨p, h.onTop hon hin, hk, hv⟩

/-! ### The potential -/

/-- The number of triples of points that no rigid or balloon on the top level covers. -/
def uncovered (d : Decomposition) : Nat :=
  (triples d.points.toList).countP fun t => !d.covered t

/-- The weight of a cluster in use. -/
def weight (d : Decomposition) (id : ClusterId) : Nat :=
  (d.cluster? id).elim 0 (Cluster.weight d.points.size)

/-- The weight of the top level. -/
def reserve (d : Decomposition) : Nat := total d.weight d.topLevel.toList

/-- A bound for the merges to come. -/
def potential (d : Decomposition) : Nat := 2 * d.uncovered + d.reserve

theorem weight_of_cluster? {c : Cluster} (h : d.cluster? id = some c) :
    d.weight id = c.weight d.points.size := by
  rw [weight, h]
  rfl

theorem weight_le (d : Decomposition) (id : ClusterId) : d.weight id ≤ d.points.size + 1 := by
  unfold weight
  cases d.cluster? id with
  | none => exact Nat.zero_le _
  | some c => exact c.weight_le _

theorem potential_le (d : Decomposition) : d.potential ≤
    2 * (d.points.size * d.points.size * d.points.size) + d.topLevel.size +
      d.topLevel.size * d.points.size := by
  have hu : d.uncovered ≤ d.points.size * d.points.size * d.points.size := by
    have hle := List.countP_le_length (p := fun t => !d.covered t) (l := triples d.points.toList)
    rwa [length_triples] at hle
  have hr : d.reserve ≤ d.topLevel.size * (d.points.size + 1) :=
    total_le fun id _ => d.weight_le id
  rw [Nat.mul_add, Nat.mul_one] at hr
  unfold potential
  omega

/-- The clusters that a plan takes off the top level. -/
def taken (d : Decomposition) (plan : Plan) : List ClusterId :=
  d.topLevel.toList.filter fun id => .existing id ∈ plan.inputs

/-- The top level gets lighter by what a plan takes and heavier by its output. -/
theorem Carried.reserve_add (h : d.Carried plan out d') (hg : d.Grounded) :
    d'.reserve + total d.weight (d.taken plan) = d.reserve + plan.output.weight d.points.size := by
  obtain ⟨new, hgrown, -⟩ := h.grown
  -- Weights are read off the clusters and the number of points, and a plan brings no new point.
  have hsame : ∀ id ∈ d.topLevel, d'.weight id = d.weight id := by
    intro id hid
    obtain ⟨c, hc⟩ := live_iff.1 (hg.top id hid)
    rw [weight_of_cluster? hc, weight_of_cluster? (hgrown.clusters id c hc), hgrown.points]
  have hout : d'.weight out = plan.output.weight d.points.size := by
    rw [weight_of_cluster? h.output, hgrown.points]
  -- The top level afterwards is what was not taken, and the output.
  have hafter : d'.reserve = total d.weight (d.topLevel.toList.filter fun id =>
      !decide (.existing id ∈ plan.inputs)) + plan.output.weight d.points.size := by
    rw [reserve, h.topLevel, total_append, total_cons, total_nil, hout, Nat.add_zero,
      total_congr fun id hid => hsame id (List.mem_filter.1 hid).1]
    simp only [decide_not]
  have hbefore : d.reserve = _ :=
    total_filter d.weight (fun id => .existing id ∈ plan.inputs) d.topLevel.toList
  unfold taken
  omega

/-- What a plan takes weighs at least as much as the output, each cluster by itself. -/
theorem weight_le_of_taken (hg : d.Grounded) (hp : plan.Sound d)
    (hi : .existing id ∈ plan.inputs) :
    id ∈ d.taken plan ∧ plan.output.weight d.points.size ≤ d.weight id := by
  obtain ⟨c, hc, hw⟩ := hp.weaker _ hi
  cases hc with
  | existing hon =>
    refine ⟨List.mem_filter.2 ⟨hon.1, by simpa using hi⟩, ?_⟩
    rw [weight_of_cluster? hon.2]
    exact hw.weight_le (hg.valid _ _ hon.2)

/-- A hedgehog that grows gets lighter by an arm at least. -/
theorem weight_lt_of_growth (hg : d.Grounded) (hp : plan.Sound d) {hog : PlacedHedgehog}
    {arms : NameSet} {a : PointName} (hon : d.OnTop hog.placed)
    (hin : .existing hog.id ∈ plan.inputs) (ho : plan.output = .hedgehog hog.centre arms)
    (ha : a ∈ arms) (hnew : a ∉ hog.arms) :
    plan.output.weight d.points.size < d.weight hog.id := by
  have hw := hp.weaker_of_onTop hon hin
  rw [ho] at hw
  have harms : hog.arms.size < arms.size := NameSet.size_lt_of_subset hw.arms_subset ha hnew
  have hbound : arms.size ≤ d.points.size := by
    refine NameSet.size_le_of_mem_imp fun v hv => hg.mem_points_of_output hp ?_
    rw [ho]
    exact Cluster.mem_hedgehog.2 (.inr hv)
  have hhog : d.weight hog.id = d.points.size - hog.arms.size + 1 := weight_of_cluster? hon.2
  have hlight : plan.output.weight d.points.size = d.points.size - arms.size + 1 := by
    rw [ho]
    rfl
  omega

theorem Carried.uncovered_le (h : d.Carried plan out d') (hg : d.Grounded) (hp : plan.Sound d) :
    d'.uncovered ≤ d.uncovered := by
  obtain ⟨new, hgrown, -⟩ := h.grown
  unfold uncovered
  rw [hgrown.points]
  refine List.countP_mono_left fun t _ ht => ?_
  rw [Bool.not_eq_true', ← Bool.not_eq_true] at ht ⊢
  exact mt (h.covered hg hp) ht

/-- The triangle that a plan covers is among the triples counted. -/
theorem Carried.uncovered_lt (h : d.Carried plan out d') (hg : d.Grounded) (hp : plan.Sound d)
    {a b c : PointName} (ho : plan.output = .balloon (.ofList [a, b, c]))
    (hn : d.covered (.ofList [a, b, c]) = false) : d'.uncovered < d.uncovered := by
  obtain ⟨new, hgrown, -⟩ := h.grown
  have hpts : ∀ v ∈ NameSet.ofList [a, b, c], v ∈ d.points := by
    intro v hv
    refine hg.mem_points_of_output hp ?_
    rw [ho]
    exact hv
  have hcov : d'.covered (.ofList [a, b, c]) = true := by
    refine covered_iff.2 ⟨_, h.onTop_output, ?_, fun v hv => ?_⟩
    · simp [ho, Cluster.kind]
    · rw [ho]
      exact hv
  unfold uncovered
  rw [hgrown.points]
  -- What was covered stays covered, and one triple more is.
  refine countP_lt_countP (fun t _ ht => ?_)
    (mem_triples (hpts a (by simp)) (hpts b (by simp)) (hpts c (by simp))) ?_ ?_
  · rw [Bool.not_eq_true', ← Bool.not_eq_true] at ht ⊢
    exact mt (h.covered hg hp) ht
  · rw [hcov]
    rfl
  · rw [hn]
    rfl

/-- Every merge lowers the potential. -/
theorem Carried.potential_lt (h : d.Carried plan out d') (hg : d.Grounded) (hp : plan.Sound d) :
    d'.potential < d.potential := by
  have hreserve := h.reserve_add hg
  have hle := h.uncovered_le hg hp
  have hpos := Cluster.weight_pos d.points.size plan.output
  unfold potential
  rcases hp.progresses with ⟨i, j, hi, hj, hne⟩ | ⟨hog, arms, a, hon, hin, ho, ha, hnew⟩ |
    ⟨a, b, c, ho, hn⟩
  · -- Two clusters leave for one.
    obtain ⟨hi, hwi⟩ := weight_le_of_taken hg hp hi
    obtain ⟨hj, hwj⟩ := weight_le_of_taken hg hp hj
    have hsum : d.weight i + d.weight j ≤ total d.weight (d.taken plan) := add_le_total hi hj hne
    omega
  · -- A hedgehog leaves for a larger one.
    have hlt := weight_lt_of_growth hg hp hon hin ho ha hnew
    have hsum : d.weight hog.id ≤ total d.weight (d.taken plan) :=
      le_total (weight_le_of_taken hg hp hin).1
    omega
  · -- Two hedgehogs may stay where they are, but the new balloon covers one more triangle.
    have hlt := h.uncovered_lt hg hp ho hn
    have hone : plan.output.weight d.points.size = 1 := by
      rw [ho]
      rfl
    omega

/-! ### Enough steps -/

theorem processWithin_add (a b : Nat) (d : Decomposition) :
    processWithin (a + b) d = processWithin b (processWithin a d) := by
  induction a generalizing d with
  | zero => rw [Nat.zero_add, processWithin]
  | succ a ih =>
    rw [Nat.succ_add, processWithin, processWithin]
    cases hw : d.worklist with
    | nil =>
      cases b with
      | zero => rfl
      | succ b =>
        dsimp only
        rw [processWithin, hw]
    | cons id rest => exact ih _

theorem processWithin_of_worklist_nil {n : Nat} (h : d.worklist = []) : processWithin n d = d := by
  cases n with
  | zero => rfl
  | succ n => rw [processWithin, h]

/-- A step takes one cluster off the worklist, or puts one more there and lowers the potential. -/
theorem Sound.processStep_measure (h : d.Sound) (id : ClusterId) :
    (d.processStep id).Sound ∧
      (d.processStep id).worklist.length + 2 * (d.processStep id).potential ≤
        d.worklist.length + 2 * d.potential := by
  rcases h.processStep_cases id with ⟨he, -⟩ | ⟨ps, plan, out, d', hf, hc, he⟩
  · rw [he]
    exact ⟨h, Nat.le_refl _⟩
  · rw [he]
    refine ⟨hc.sound.withWorklist _, ?_⟩
    have hlt := hc.potential_lt h.grounded (hf.sound h.grounded)
    have hlen : (d.worklist ++ out :: if id ∈ d'.topLevel then [id] else []).length ≤
        d.worklist.length + 2 := by
      split <;> simp
    show _ + 2 * d'.potential ≤ _
    dsimp only
    omega

/-- With enough steps the worklist is emptied. -/
theorem Sound.worklist_processWithin (h : d.Sound) {n : Nat}
    (hn : d.worklist.length + 2 * d.potential ≤ n) : (processWithin n d).worklist = [] := by
  induction n generalizing d with
  | zero =>
    have hnil : d.worklist.length = 0 := by omega
    exact List.length_eq_zero_iff.1 hnil
  | succ n ih =>
    rw [processWithin]
    cases hw : d.worklist with
    | nil => exact hw
    | cons id rest =>
      obtain ⟨hs, hle⟩ := (h.withWorklist rest).processStep_measure id
      refine ih hs (Nat.le_trans hle ?_)
      rw [hw, List.length_cons] at hn
      show rest.length + 2 * d.potential ≤ n
      omega

/-- The search empties the worklist, and its bound on the number of steps never cuts it short. -/
def SearchEnds (d : Decomposition) : Prop :=
  d.process.worklist = [] ∧ ∀ n, d.searchBudget ≤ n → processWithin n d = d.process

theorem Sound.searchEnds (h : d.Sound) : d.SearchEnds := by
  have hnil : d.process.worklist = [] := by
    refine h.worklist_processWithin ?_
    have hle := d.potential_le
    unfold searchBudget
    dsimp only
    omega
  refine ⟨hnil, fun n hn => ?_⟩
  obtain ⟨k, rfl⟩ := Nat.exists_eq_add_of_le hn
  rw [processWithin_add]
  exact processWithin_of_worklist_nil hnil

/-- Between operations no cluster waits to be searched. -/
theorem Reachable.worklist_eq_nil (h : d.Reachable) : d.worklist = [] := by
  cases h with
  | empty => rfl
  | add hd ha =>
    obtain ⟨hc, -, rfl⟩ := hd.sound.add_eq_ok.1 ha
    exact (hd.sound.receive hc).searchEnds.1
  | remove hd hr =>
    obtain ⟨-, hdet, rfl⟩ := hd.sound.remove_eq_ok.1 hr
    exact (hd.sound.dropCluster hdet).1.searchEnds.1
  | setRoot hd hr =>
    obtain ⟨p, -, rfl⟩ := hd.sound.setRoot_eq_ok.1 hr
    exact (hd.sound.reroot _).1.searchEnds.1

end Decomposition

/-- After every run no cluster waits to be searched, and whatever adding a valid cluster, removing
an added one or changing the root puts on the worklist, the search empties it after finitely many
steps. -/
theorem Solver.search_terminates (config : SolverConfig) (ops : List Operation) :
    let d := (run config ops).decomposition
    d.worklist = [] ∧
      (∀ c : Cluster, c.Valid → (d.receive c).2.SearchEnds) ∧
      (∀ id, d.Live id → d.determining? id = none → (d.dropCluster id).SearchEnds) ∧
      ∀ id p, d.cluster? id = some (.rigid p) → (d.reroot id).SearchEnds := by
  have hreach := reachable_run config ops
  have hs := hreach.sound
  refine ⟨hreach.worklist_eq_nil, fun c hc => ?_, fun id _ hdet => ?_, fun id _ _ => ?_⟩
  · exact (hs.receive hc).searchEnds
  · exact (hs.dropCluster hdet).1.searchEnds
  · exact (hs.reroot id).1.searchEnds

end PlanarSketch
