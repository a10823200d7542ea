/-
The frontier.

After every run the top level consists of the clusters that no merge consumed,
and merging loses nothing: a merge has the points of its inputs and determines
what they determine, so by following the merges upwards from any cluster one
comes to a cluster on the top level that knows as much.

* `Lossless`: no merge lost anything, kept by every operation
  (`Reachable.lossless`);
* `Sound.exists_above`: above every cluster there is one on the top level.

Both results are stated for all runs of a solver at the end.
-/
import PlanarSketch.Proofs.Runs

namespace PlanarSketch

theorem MergeRule.isDerivation_eq_false {r : MergeRule} :
    r.isDerivation = false ↔ r ≠ .deriveHedgehog := by
  simp [isDerivation]

/-- A merge that stands in two decompositions on the same clusters loses nothing in the one if it
loses nothing in the other. -/
theorem Merge.Lossless.transfer {m : Merge} {d d' : Decomposition} (h : m.Lossless d)
    (hs : m.StandsIn d) (hs' : m.StandsIn d')
    (hc : ∀ id c c', d.cluster? id = some c → d'.cluster? id = some c' → c = c') :
    m.Lossless d' := by
  have hagree : ∀ id, d.Live id → d'.Live id → d'.cluster? id = d.cluster? id := by
    intro id hl hl'
    obtain ⟨c, hcl⟩ := Decomposition.live_iff.1 hl
    obtain ⟨c', hcl'⟩ := Decomposition.live_iff.1 hl'
    rw [hcl, hcl', hc id c c' hcl hcl']
  exact h.congr (hagree _ hs.output hs'.output)
    fun id hid => hagree id (hs.inputs id hid) (hs'.inputs id hid)

namespace Decomposition

variable {d d' : Decomposition} {id : ClusterId}

/-! ### Merging loses nothing -/

/-- No merge in use, derivations apart, lost anything. -/
def Lossless (d : Decomposition) : Prop :=
  ∀ k m, d.merges.find? k = some m → m.rule.isDerivation = false → m.Lossless d

theorem Lossless.transfer (h : d.Lossless) (hg : d.Grounded) (hg' : d'.Grounded)
    (hm : ∀ k m, d'.merges.find? k = some m → d.merges.find? k = some m)
    (hc : ∀ id c c', d.cluster? id = some c → d'.cluster? id = some c' → c = c') :
    d'.Lossless := by
  intro k m hk hr
  have hk' := hm k m hk
  exact (h k m hk' hr).transfer (hg.merge k m hk') (hg'.merge k m hk) hc

/-- Carrying out a plan adds only merges that lose nothing. -/
theorem Lossless.carried (h : d.Lossless) (hd : d.Sound) {plan : Plan} {out : ClusterId}
    (hc : d.Carried plan out d') : d'.Lossless := by
  obtain ⟨new, hgrown, hnew⟩ := hc.grown
  intro k m hk hr
  have hm : m ∈ d.merges.values ++ new := by
    rw [← hgrown.merges]
    exact Registry.mem_values_iff.2 ⟨k, hk⟩
  rcases List.mem_append.1 hm with hm | hm
  · obtain ⟨j, hj⟩ := Registry.mem_values_iff.1 hm
    refine (h j m hj hr).transfer (hd.grounded.merge j m hj) (hc.sound.grounded.merge k m hk) ?_
    intro id c c' h₁ h₂
    exact Option.some_inj.1 ((hgrown.clusters id c h₁).symm.trans h₂)
  · exact hnew m hm hr

theorem Lossless.process (h : d.Lossless) (hd : d.Sound) : d.process.Lossless :=
  (hd.process_of_carried (P := Lossless)
    (fun _ _ hl k m hk hr => (hl k m hk hr).congr rfl fun _ _ => rfl)
    (fun _ _ _ _ _ hs hl _ hc => hl.carried hs hc) h).2

theorem Reachable.lossless (h : d.Reachable) : d.Lossless :=
  h.induction_of_transfer (fun _ _ hk => by cases hk)
    (fun _ _ hg hg' hm hc hl => hl.transfer hg hg' hm hc) fun _ hs hl => hl.process hs

/-! ### Above every cluster is one on the top level -/

/-- What merges pass on from the clusters that they consume to their outputs reaches the top
level. -/
theorem Sound.exists_topLevel {P : ClusterId → Prop} (h : d.Sound) (hlive : ∀ x, P x → d.Live x)
    (hstep : ∀ k m x, d.merges.find? k = some m → x ∈ m.consumed → P x → P m.output)
    (hid : P id) : ∃ t ∈ d.topLevel, P t := by
  -- Outputs are younger than inputs, and no key in use is younger than the next one.
  induction hn : d.clusters.nextKey.serial - id.serial using Nat.strongRecOn generalizing id with
  | ind n ih =>
    by_cases htop : id ∈ d.topLevel
    · exact ⟨id, htop, hid⟩
    · obtain ⟨k, m, hk, hmem⟩ : d.Consumed id :=
        Classical.not_not.1 (mt (h.settled.frontier id (hlive id hid) (by simp)).2 htop)
      have hs := h.grounded.merge k m hk
      have hyounger := hs.younger id (hs.mem_inputs hmem).2
      have hbound : m.output.serial < d.clusters.nextKey.serial :=
        Registry.serial_lt_nextKey hs.output
      exact ih _ (by omega) (hstep k m id hk hmem hid) rfl

/-- Some cluster on the top level knows as much as a given cluster. -/
theorem Sound.exists_above (h : d.Sound) (hl : d.Lossless) {c : Cluster}
    (hc : d.cluster? id = some c) :
    ∃ t ∈ d.topLevel, ∃ o, d.cluster? t = some o ∧ c.Weaker o := by
  refine h.exists_topLevel (P := fun x => ∃ o, d.cluster? x = some o ∧ c.Weaker o)
    (fun x ⟨_, hx, _⟩ => live_of_cluster? hx) ?_ ⟨c, hc, .refl c⟩
  intro k m x hk hmem ⟨b, hb, hw⟩
  have hs := h.grounded.merge k m hk
  obtain ⟨hr, hin⟩ := hs.mem_inputs hmem
  obtain ⟨o, ho⟩ := live_iff.1 hs.output
  exact ⟨o, ho, hw.trans ((hl k m hk hr).weaker o x b ho hin hb)⟩

end Decomposition

namespace Solver

/-! ### All runs -/

/-- After every run a cluster in use is on the top level if and only if no merge consumed it, at
most one merge consumes it, at most one merge has it as its output, and no derived hedgehog is on
the top level. -/
theorem frontier_run (config : SolverConfig) (ops : List Operation) :
    let d := (run config ops).decomposition
    (∀ id ∈ d.topLevel, d.Live id) ∧
      (∀ id, d.Live id →
        (id ∈ d.topLevel ↔ ¬∃ k m, d.merges.find? k = some m ∧ id ∈ m.consumed)) ∧
      (∀ id k₁ k₂ m₁ m₂, d.merges.find? k₁ = some m₁ → d.merges.find? k₂ = some m₂ →
        id ∈ m₁.consumed → id ∈ m₂.consumed → k₁ = k₂) ∧
      (∀ k₁ k₂ m₁ m₂, d.merges.find? k₁ = some m₁ → d.merges.find? k₂ = some m₂ →
        m₁.output = m₂.output → k₁ = k₂) ∧
      ∀ k m, d.merges.find? k = some m → m.rule = .deriveHedgehog → m.output ∉ d.topLevel := by
  obtain ⟨hg, hs⟩ := (reachable_run config ops).sound
  refine ⟨hg.top, fun id hid => hs.frontier id hid (by simp), ?_, hg.outputOnce, ?_⟩
  · intro id k₁ k₂ m₁ m₂ h₁ h₂ hc₁ hc₂
    exact hs.consumedOnce k₁ k₂ m₁ m₂ id h₁ h₂ hc₁ hc₂
  · intro k m hk hr
    exact hs.hidden k m hk (by rw [hr]; rfl) (by simp)

-- The angle between two rigids is derived from a larger hedgehog.  The derived hedgehog is consumed
-- at once, and the larger one stays.
example :
    let d := (run {} [.add (.rigid (.ofList ["A", "B"])), .add (.rigid (.ofList ["B", "C"])),
      .add (.hedgehog "B" (.ofList ["A", "C", "D"]))]).decomposition
    d.merges.values.map (fun m => (m.rule, m.consumed.map Key.serial, m.output.serial)) =
        [(.deriveHedgehog, [], 4), (.rigidsAngleBetween, [1, 2, 4], 5)] ∧
      d.topLevel.toList.map Key.serial = [3, 5] := by
  decide +kernel

/-- After every run each merge that is not a derivation has just the points of its inputs and
determines whatever they determine; so whatever some cluster determines, and every point of it, is
found on the top level. -/
theorem knowledge_run (config : SolverConfig) (ops : List Operation) :
    let d := (run config ops).decomposition
    (∀ k m, d.merges.find? k = some m → m.rule ≠ .deriveHedgehog →
      ∃ o, d.cluster? m.output = some o ∧
        (∀ v, v ∈ o ↔ ∃ id ∈ m.inputs, ∃ c, d.cluster? id = some c ∧ v ∈ c) ∧
        ∀ id ∈ m.inputs, ∃ c, d.cluster? id = some c ∧
          ∀ r, c.implies r = true → o.implies r = true) ∧
      (∀ id c r, d.cluster? id = some c → c.implies r = true →
        ∃ t ∈ d.topLevel, ∃ o, d.cluster? t = some o ∧ o.implies r = true) ∧
      ∀ id c v, d.cluster? id = some c → v ∈ c →
        ∃ t ∈ d.topLevel, ∃ o, d.cluster? t = some o ∧ v ∈ o := by
  have hreach := reachable_run config ops
  have hs := hreach.sound
  have hl := hreach.lossless
  refine ⟨fun k m hk hr => ?_, fun id c r hc hr => ?_, fun id c v hc hv => ?_⟩
  · -- Such a merge loses nothing, and makes nothing up.
    have hm := hl k m hk (MergeRule.isDerivation_eq_false.2 hr)
    have hstands := hs.grounded.merge k m hk
    obtain ⟨o, ho⟩ := Decomposition.live_iff.1 hstands.output
    refine ⟨o, ho, fun v => ⟨hm.members o v ho, ?_⟩, fun id hid => ?_⟩
    · rintro ⟨id, hid, c, hc, hv⟩
      exact (hm.weaker o id c ho hid hc).mem (hs.grounded.valid id c hc) hv
    · obtain ⟨c, hc⟩ := Decomposition.live_iff.1 (hstands.inputs id hid)
      exact ⟨c, hc, hm.weaker o id c ho hid hc⟩
  · -- Above every cluster there is one on the top level that determines as much.
    obtain ⟨t, ht, o, ho, hw⟩ := hs.exists_above hl hc
    exact ⟨t, ht, o, ho, hw r hr⟩
  · obtain ⟨t, ht, o, ho, hw⟩ := hs.exists_above hl hc
    exact ⟨t, ht, o, ho, hw.mem (hs.grounded.valid id c hc) hv⟩

end Solver

end PlanarSketch
