/-
The order in which clusters are added.

Whatever order the clusters come in, an unhindered decomposition that has them
all knows everything that another one arrives at, since what it knows is closed
under the rules.  So two unhindered decompositions know the same, and then
their top levels are the same, because neither has clusters to spare.

* `Saturated.known_process`: the search does not leave what is known;
* `Solver.topClusters_perm`: the order does not matter if nothing is hindered;
* `Solver.not_topClusters_perm`: it may matter otherwise.
-/
import Mathlib.Data.List.Induction
import PlanarSketch.Proofs.Frontier
import PlanarSketch.Proofs.Irredundance

namespace PlanarSketch

namespace Decomposition

variable {d d' : Decomposition}

/-! ### Decompositions that know the same -/

/-- Of two decompositions that know each other's top level one has the top level of the other. -/
theorem Irredundant.topClusters_subset (h : d.Irredundant) (hg : d.Grounded) (hg' : d'.Grounded)
    (hk : ∀ p, d.OnTop p → d'.Known p.cluster) (hk' : ∀ p, d'.OnTop p → d.Known p.cluster) :
    d.topClusters ⊆ d'.topClusters := by
  intro c hc
  obtain ⟨id, hp⟩ := mem_topClusters.1 hc
  obtain ⟨q, hq, hw⟩ := hk _ hp
  obtain ⟨p', hp', hw'⟩ := hk' q hq
  -- The cluster is weaker than what is above it and comes back to itself.
  obtain rfl := h _ p' hp hp' (hw.trans hw')
  obtain rfl := hw.antisymm hw' (hg.valid _ _ hp.2) (hg'.valid _ _ hq.2)
  exact mem_topClusters.2 ⟨q.id, hq⟩

/-- Whether a saturated decomposition is unhindered shows on its top level: nothing else holds a
hedgehog back there. -/
theorem Saturated.unhindered_of_subset (h : d.Saturated) (hu : d.Unhindered)
    (hsub : d'.topClusters ⊆ d.topClusters) : d'.Unhindered := by
  intro source hs hog hh
  rw [← Bool.not_eq_true]
  intro hhinders
  unfold hinders at hhinders
  split at hhinders
  · rename_i c centre arms hc hhog
    simp only [Bool.and_eq_true, decide_eq_true_eq, Bool.not_eq_true', decide_eq_false_iff_not]
      at hhinders
    obtain ⟨⟨⟨⟨hk, hcentre⟩, hmeet⟩, hmore⟩, -⟩ := hhinders
    -- Both clusters stand on the other top level too, where the hedgehog sees all that it can grow
    -- by.
    obtain ⟨i, hp⟩ := mem_topClusters.1 (hsub (mem_topClusters.2 ⟨source, hs, hc⟩))
    obtain ⟨j, hg⟩ := mem_topClusters.1 (hsub (mem_topClusters.2 ⟨hog, hh, hhog⟩))
    simp only [NameSet.Disjoint, Classical.not_forall, Classical.not_not] at hmeet
    obtain ⟨a, hseen, harm⟩ := hmeet
    obtain ⟨hac, hne⟩ := NameSet.mem_erase.1 hseen
    have hg' : d.OnTop (PlacedHedgehog.placed ⟨j, centre, arms⟩) := hg
    exact hmore (h.subset_arms hu hp hg' hk hcentre hac harm hne)
  · cases hhinders

/-! ### What the search arrives at -/

/-- The search does not leave what a saturated and unhindered decomposition knows. -/
theorem Saturated.known_process (h : d.Saturated) (hu : d.Unhindered) {x : Decomposition}
    (hx : x.Sound) (hk : ∀ p, x.OnTop p → d.Known p.cluster) :
    ∀ p, x.process.OnTop p → d.Known p.cluster := by
  refine (hx.process_of_carried (P := fun x => ∀ p, x.OnTop p → d.Known p.cluster)
    (fun _ _ hk => hk) (fun x ps plan out x' hx hk hf hc p hp => ?_) hk).2
  rcases hc.onTop_cases hx.grounded hp with hp | rfl
  · exact hk p hp
  · exact hf.known hx.grounded h hu hk

/-- Adds a cluster, or leaves the decomposition as it is if the cluster is not valid. -/
def adding (d : Decomposition) (c : Cluster) : Decomposition :=
  match d.add c with
  | .error _ => d
  | .ok (_, d') => d'.withoutJournal

end Decomposition

namespace Solver

open Decomposition

/-! ### Adding clusters one after the other -/

/-- What holds of the empty decomposition and is kept when a valid cluster is added holds after any
clusters have been added; clusters that are not valid are passed over. -/
theorem run_adds_induction {P : List Cluster → Decomposition → Prop} (config : SolverConfig)
    (hempty : P [] empty) (hskip : ∀ cs c d, ¬c.Valid → P cs d → P (cs ++ [c]) d)
    (hadd : ∀ cs c d, d.Reachable → c.Valid → P cs d →
      P (cs ++ [c]) (d.receive c).2.process.withoutJournal) (cs : List Cluster) :
    P cs (run config (cs.map .add)).decomposition := by
  induction cs using List.reverseRecOn with
  | nil => exact hempty
  | append_singleton cs c ih =>
    have hreach := reachable_run config (cs.map .add)
    rw [List.map_append, List.map_singleton, run_concat, decomposition_add]
    cases ha : (run config (cs.map .add)).decomposition.add c with
    | error e =>
      refine hskip cs c _ (fun hc => ?_) ih
      rw [hreach.sound.add_eq_ok.2 ⟨hc, rfl, rfl⟩] at ha
      cases ha
    | ok r =>
      obtain ⟨hc, -, hd⟩ := hreach.sound.add_eq_ok.1 ha
      dsimp only
      rw [hd]
      exact hadd cs c _ hreach hc ih

/-- The candidates play no part in the decomposition, so it can be computed without them. -/
theorem decomposition_run_adds (config : SolverConfig) (cs : List Cluster) :
    (run config (cs.map .add)).decomposition = cs.foldl adding empty := by
  induction cs using List.reverseRecOn with
  | nil => rfl
  | append_singleton cs c ih =>
    rw [List.map_append, List.map_singleton, run_concat, decomposition_add, ih, List.foldl_append]
    rfl

theorem independent_run_adds (config : SolverConfig) (cs : List Cluster) :
    (run config (cs.map .add)).decomposition.Independent := by
  refine run_adds_induction (P := fun _ d => d.Independent) config ?_ (fun _ _ _ _ h => h) ?_ cs
  · intro hog cover hinside
    exact absurd hinside.hog_onTop.1 (OrderedSet.not_mem_empty _)
  · intro cs c d hd hc h
    have hprocess := (h.receive hd.sound.grounded c).process (hd.sound.receive hc)
      (hd.lineage.of_merges fun _ _ hk => hk)
    exact hprocess.of_onTop (fun _ hp => hp) fun _ _ hab => hab

/-- Every valid cluster is known after it has been added, whatever follows. -/
theorem known_run_adds (config : SolverConfig) {cs : List Cluster} {c : Cluster} (hc : c ∈ cs)
    (hv : c.Valid) : (run config (cs.map .add)).decomposition.Known c := by
  have hreach := reachable_run config (cs.map .add)
  -- No addition takes clusters away, so all valid ones that were added are still in use.
  have hlive : ∀ c ∈ cs, c.Valid → ∃ id, (run config (cs.map .add)).decomposition.cluster? id =
      some c := by
    refine run_adds_induction (P := fun cs d => ∀ c ∈ cs, c.Valid → ∃ id, d.cluster? id = some c)
      config (fun c hc => by cases hc) (fun cs c d hc h => ?_) (fun cs c d hd hc h => ?_) cs
    · intro e he hv
      rcases List.mem_append.1 he with he | he
      · exact h e he hv
      · rw [List.mem_singleton.1 he] at hv
        exact absurd hv hc
    · intro e he hv
      have hsound := hd.sound.receive hc
      rcases List.mem_append.1 he with he | he
      · obtain ⟨id, hid⟩ := h e he hv
        refine ⟨id, hsound.cluster?_process ?_⟩
        exact (cluster?_insertCluster ⟨c, false, false⟩).2 (.inl hid)
      · rw [List.mem_singleton.1 he]
        refine ⟨d.clusters.nextKey, hsound.cluster?_process ?_⟩
        exact (cluster?_insertCluster ⟨c, false, false⟩).2 (.inr ⟨rfl, rfl⟩)
  obtain ⟨id, hid⟩ := hlive c hc hv
  -- And whatever is in use is known by a cluster on the top level above it.
  obtain ⟨t, ht, o, ho, hw⟩ := hreach.sound.exists_above hreach.lossless hid
  exact ⟨⟨t, o⟩, ⟨ht, ho⟩, hw⟩

/-- An unhindered decomposition knows all that its clusters lead to in another order. -/
theorem known_of_perm (config : SolverConfig) {cs cs' : List Cluster} (h : cs.Perm cs')
    (hu : (run config (cs'.map .add)).decomposition.Unhindered) {p : Placed}
    (hp : (run config (cs.map .add)).decomposition.OnTop p) :
    (run config (cs'.map .add)).decomposition.Known p.cluster := by
  have hsat := saturated_run_adds config cs'
  have hknown : ∀ c ∈ cs, c.Valid → (run config (cs'.map .add)).decomposition.Known c :=
    fun c hc hv => known_run_adds config (h.mem_iff.1 hc) hv
  generalize (run config (cs'.map .add)).decomposition = known at hsat hu hknown ⊢
  refine run_adds_induction (P := fun cs d => (∀ c ∈ cs, c.Valid → known.Known c) →
    ∀ p, d.OnTop p → known.Known p.cluster) config ?_ (fun cs c d _ ih hk => ?_)
    (fun cs c d hd hc ih hk => ?_) cs hknown p hp
  · exact fun _ p hp => absurd hp.1 (OrderedSet.not_mem_empty _)
  · exact ih fun e he => hk e (List.mem_append_left _ he)
  · refine hsat.known_process hu (hd.sound.receive hc) fun p hp => ?_
    rcases onTop_receive_cases hp with hp | rfl
    · exact ih (fun e he => hk e (List.mem_append_left _ he)) p hp
    · exact hk c (List.mem_append_right _ (List.mem_singleton_self c)) hc

theorem irredundant_run_adds (config : SolverConfig) (cs : List Cluster) :
    (run config (cs.map .add)).decomposition.Irredundant := by
  have hreach := reachable_run config (cs.map .add)
  exact (saturated_run_adds config cs).irredundant hreach.sound.grounded hreach.lineage
    (independent_run_adds config cs)

/-- If the clusters lead to an unhindered decomposition in one order, every other order leads to
clusters that are weaker or the same, and it leads to the same ones, each of them once, if and only
if it is unhindered too. -/
theorem topClusters_perm (config : SolverConfig) {cs cs' : List Cluster} (h : cs.Perm cs') :
    let d := (run config (cs.map .add)).decomposition
    let d' := (run config (cs'.map .add)).decomposition
    d'.Unhindered → (∀ c ∈ d.topClusters, ∃ o ∈ d'.topClusters, c.Weaker o) ∧
      (d.topClusters.Perm d'.topClusters ↔ d.Unhindered) := by
  intro d d' hu'
  have hg := (reachable_run config (cs.map .add)).sound.grounded
  have hg' := (reachable_run config (cs'.map .add)).sound.grounded
  have hi := irredundant_run_adds config cs
  have hi' := irredundant_run_adds config cs'
  refine ⟨fun c hc => ?_, fun hperm => ?_, fun hu => ?_⟩
  · obtain ⟨id, hp⟩ := mem_topClusters.1 hc
    obtain ⟨q, hq, hw⟩ := known_of_perm config h hu' hp
    exact ⟨q.cluster, mem_topClusters.2 ⟨q.id, hq⟩, hw⟩
  · exact (saturated_run_adds config cs').unhindered_of_subset hu' hperm.subset
  · have hk := fun p hp => known_of_perm config h hu' (p := p) hp
    have hk' := fun p hp => known_of_perm config h.symm hu (p := p) hp
    refine (List.perm_ext_iff_of_nodup hi.nodup_topClusters hi'.nodup_topClusters).2 fun c => ?_
    exact ⟨fun hc => hi.topClusters_subset hg hg' hk hk' hc,
      fun hc => hi'.topClusters_subset hg' hg hk' hk hc⟩

/-- Two hedgehogs that make a balloon larger, and one that grows by it, in either order. -/
theorem topClusters_perm_reverse :
    let cs : List Cluster := [.balloon (.ofList ["A", "B", "C"]),
      .hedgehog "A" (.ofList ["C", "D"]), .hedgehog "C" (.ofList ["A", "D"]),
      .hedgehog "D" (.ofList ["A", "E"])]
    let d := (run {} (cs.map .add)).decomposition
    let d' := (run {} (cs.reverse.map .add)).decomposition
    cs.Perm cs.reverse ∧ d.Unhindered ∧ d'.Unhindered ∧ d.topClusters.Perm d'.topClusters := by
  intro cs d d'
  have hperm : cs.Perm cs.reverse := (List.reverse_perm cs).symm
  have hu : d.Unhindered := by
    show (run {} (cs.map .add)).decomposition.Unhindered
    rw [decomposition_run_adds]
    decide +kernel
  have hu' : d'.Unhindered := by
    show (run {} (cs.reverse.map .add)).decomposition.Unhindered
    rw [decomposition_run_adds]
    decide +kernel
  exact ⟨hperm, hu, hu', (topClusters_perm {} hperm hu').2.2 hu⟩

/-- The order matters in general.  A chain of triangles leads from the balloon `a, w, x` to its own
point `w`.  A hedgehog at `w` that is there from the start grows by the balloon first and then by
the chain, and in the end all is one balloon.  One that comes later grows by the chain first.  Then
it has been computed from the balloon and does not grow by that any more, and the last hedgehog
finds no triangle. -/
theorem not_topClusters_perm :
    ¬∀ (config : SolverConfig) (cs cs' : List Cluster), (∀ c ∈ cs, c.Valid) → cs.Perm cs' →
      ∀ c, c ∈ (run config (cs.map .add)).decomposition.topClusters ↔
        c ∈ (run config (cs'.map .add)).decomposition.topClusters := by
  intro h
  let balloon : Cluster := .balloon (.ofList ["a", "w", "x"])
  let chain : List Cluster := [.hedgehog "a" (.ofList ["e", "w", "y"]),
    .hedgehog "e" (.ofList ["f", "g", "y"]), .hedgehog "y" (.ofList ["a", "e"]),
    .hedgehog "f" (.ofList ["e", "g"]), .hedgehog "g" (.ofList ["f", "k", "w"]),
    .hedgehog "k" (.ofList ["g", "w"])]
  let hog : Cluster := .hedgehog "w" (.ofList ["k", "x"])
  let last : Cluster := .hedgehog "a" (.ofList ["k", "w"])
  have hiff := h {} (balloon :: chain ++ [hog, last]) (balloon :: hog :: chain ++ [last])
    (by decide) (by decide) (.balloon (.ofList ["a", "e", "f", "g", "k", "w", "x", "y"]))
  rw [decomposition_run_adds, decomposition_run_adds] at hiff
  exact absurd (hiff.2 (by decide +kernel)) (by decide +kernel)

end Solver

end PlanarSketch
