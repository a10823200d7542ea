/-
The phases find a minimum cut.

A phase cuts off the vertex that it takes last and joins it with the one
before.  A colouring that tells these two apart weighs no less than the cut of
the phase; the others leave the joined group whole and weigh the same in the
table that the phase leaves.  So by induction over the phases no colouring
weighs less than the best of their cuts.

* `Contracts`: a table and groups that weigh cuts as the first table does,
  kept by a phase (`Contracts.phase`);
* `Contracts.tie_eq`, `Contracts.tie_le`: the cut of a phase;
* `Contracts.weight_eq`, `Contracts.exists_le`: the cut of all phases;
* `Graph.cutWeight_weightTable`: the table of a graph weighs cuts as its edges
  do;
* `Graph.minCut?_isMinimum`: the cut of a graph is a minimum cut.
-/
import PlanarSketch.Proofs.Cuts
import PlanarSketch.Proofs.Edges

namespace PlanarSketch

open CutGroup WeightTable

variable {W : Type} {n steps : ℕ}

/-! ### Joining groups -/

section Groups

variable {w w₀ : WeightTable ℚ n} {side : Fin n → Bool} {groups : List (CutGroup n)}
  {prev last : Waiting ℚ n} {prevGroup lastGroup : CutGroup n} {best : Option (Cut ℚ n)}

/-- All members of a group have one colour. -/
def CutGroup.Uniform (side : Fin n → Bool) (groups : List (CutGroup n)) : Prop :=
  ∀ G ∈ groups, ∀ a ∈ G.members, side a = side G.head

/-- The vertices that stand for the groups. -/
def CutGroup.headSet (groups : List (CutGroup n)) : Finset (Fin n) := (groups.map head).toFinset

theorem CutGroup.mem_headSet {a : Fin n} : a ∈ headSet groups ↔ ∃ G ∈ groups, G.head = a := by
  simp [headSet]

/-- The table weighs the cuts that leave the groups whole as the first table does. -/
structure Contracts (w₀ w : WeightTable ℚ n) (groups : List (CutGroup n)) : Prop where
  partition : Partition groups
  symmetric : w.Symmetric
  nonneg : w.Nonneg
  cutWeight : ∀ side, Uniform side groups →
    w.cutWeight side (headSet groups) = w₀.cutWeight side Finset.univ

theorem contracts_singletons (hsymmetric : w.Symmetric) (hnonneg : w.Nonneg) :
    Contracts w w ((List.finRange n).map fun i => ⟨i, [i]⟩) where
  partition := partition_singletons n
  symmetric := hsymmetric
  nonneg := hnonneg
  cutWeight := fun side _ => by
    congr 1
    ext i
    simp [mem_headSet]

theorem Phase.uniform_joinGroups (hp : Phase w groups prev last prevGroup lastGroup)
    (h : Partition groups) : Uniform side (joinGroups groups prevGroup lastGroup) ↔
      Uniform side groups ∧ side lastGroup.head = side prevGroup.head := by
  obtain ⟨others, hperm⟩ := hp.perm
  have hjoin := perm_joinGroups h.heads hperm
  have hlast := h.head_mem lastGroup hp.lastGroup_mem
  constructor
  · intro hside
    have hjoined := hside _ (hjoin.symm.subset (List.mem_cons_self ..))
    have hheads : side lastGroup.head = side prevGroup.head :=
      hjoined lastGroup.head (List.mem_append_right _ hlast)
    refine ⟨fun G hG a ha => ?_, hheads⟩
    rcases List.mem_cons.1 (hperm.subset hG) with rfl | hG
    · rw [hheads]
      exact hjoined a (List.mem_append_right _ ha)
    rcases List.mem_cons.1 hG with rfl | hG
    · exact hjoined a (List.mem_append_left _ ha)
    · exact hside G (hjoin.symm.subset (List.mem_cons_of_mem _ hG)) a ha
  · -- The joined group is uniform since its two parts are, on the same side.
    rintro ⟨hside, hheads⟩ G hG a ha
    rcases List.mem_cons.1 (hjoin.subset hG) with rfl | hG
    · rcases List.mem_append.1 ha with ha | ha
      · exact hside prevGroup hp.prevGroup_mem a ha
      · exact (hside lastGroup hp.lastGroup_mem a ha).trans hheads
    · exact hside G (hperm.symm.subset (by simp [hG])) a ha

theorem Phase.headSet_joinGroups (hp : Phase w groups prev last prevGroup lastGroup)
    (h : Partition groups) :
    headSet (joinGroups groups prevGroup lastGroup) = (headSet groups).erase last.vertex := by
  obtain ⟨others, hperm⟩ := hp.perm
  have hnodup := (hperm.map head).nodup h.heads
  have hjoin := (perm_joinGroups h.heads hperm).map head
  rw [headSet, List.toFinset_eq_of_perm _ _ hjoin, headSet,
    List.toFinset_eq_of_perm _ _ (hperm.map head), ← hp.last_head]
  rw [List.map_cons, List.nodup_cons] at hnodup
  simp only [List.map_cons, List.toFinset_cons] at hnodup ⊢
  rw [Finset.erase_insert (by simpa using hnodup.1)]

theorem vertexSet_phaseOrder (h : Partition groups) (w : WeightTable ℚ n) :
    vertexSet (phaseOrder w groups) = headSet groups :=
  List.toFinset_eq_of_perm _ _ (perm_phaseOrder h w)

theorem greedy_phaseOrder (h : Partition groups) (w : WeightTable ℚ n) :
    Greedy w ∅ (phaseOrder w groups) := by
  refine greedy_sweep ?_ (by simp) (by simp) ?_
  · simpa [Function.comp_def] using h.heads
  · intro x hx
    obtain ⟨G, -, rfl⟩ := List.mem_map.1 hx
    rfl

/-- A phase bounds the weight of the cuts that part the last group from the one before it. -/
theorem Contracts.tie_le (h : Contracts w₀ w groups)
    (hp : Phase w groups prev last prevGroup lastGroup) (hside : Uniform side groups)
    (hne : side lastGroup.head ≠ side prevGroup.head) :
    last.tie ≤ w₀.cutWeight side Finset.univ := by
  obtain ⟨before, horder⟩ := hp.order
  rw [hp.last_head, hp.prev_head] at hne
  rw [← h.cutWeight side hside, ← vertexSet_phaseOrder h.partition w]
  exact (greedy_phaseOrder h.partition w).tie_le h.symmetric h.nonneg horder hne

/-- The last tie is that to all other vertices that stand for groups. -/
theorem Phase.tie_eq_tieTo (hp : Phase w groups prev last prevGroup lastGroup)
    (h : Partition groups) :
    last.tie = w.tieTo ((headSet groups).erase last.vertex) last.vertex := by
  obtain ⟨before, horder⟩ := hp.order
  have hgreedy := greedy_phaseOrder h w
  have hheads := vertexSet_phaseOrder h w
  have hsplit : before ++ [prev, last] = (before ++ [prev]) ++ [last] := by simp
  rw [horder, hsplit] at hgreedy hheads
  obtain ⟨hfresh, htie⟩ := hgreedy.tie_last
  have hothers : headSet groups = insert last.vertex (∅ ∪ vertexSet (before ++ [prev])) := by
    rw [← hheads]
    ext q
    simp [vertexSet, or_left_comm]
  rw [hothers, Finset.erase_insert hfresh, htie]

/-- A phase weighs the cut that it proposes. -/
theorem Contracts.tie_eq (h : Contracts w₀ w groups)
    (hp : Phase w groups prev last prevGroup lastGroup) : last.tie =
      w₀.cutWeight (fun a => decide (a ∈ lastGroup.members)) Finset.univ := by
  have hpart := h.partition
  have hside : Uniform (fun a => decide (a ∈ lastGroup.members)) groups := by
    intro G hG a ha
    rw [decide_eq_decide, hpart.mem_members_iff hG hp.lastGroup_mem ha,
      hpart.mem_members_iff hG hp.lastGroup_mem (hpart.head_mem G hG)]
  have hlast : ∀ q ∈ headSet groups, decide (q ∈ lastGroup.members) = true ↔ q = last.vertex := by
    intro q hq
    obtain ⟨G, hG, rfl⟩ := mem_headSet.1 hq
    rw [decide_eq_true_eq, hpart.mem_members_iff hG hp.lastGroup_mem (hpart.head_mem G hG),
      ← hp.last_head]
    exact ⟨fun he => he ▸ rfl, fun he => hpart.eq_of_head_eq hG hp.lastGroup_mem he⟩
  have hmem := mem_headSet.2 ⟨lastGroup, hp.lastGroup_mem, hp.last_head⟩
  rw [← h.cutWeight _ hside, cutWeight_eq_tieTo h.symmetric hmem hlast, hp.tie_eq_tieTo hpart]

/-- What a phase leaves weighs the cuts of the first table that are still to be seen. -/
theorem Contracts.phase (h : Contracts w₀ w groups)
    (hp : Phase w groups prev last prevGroup lastGroup) :
    Contracts w₀ (w.contract prev.vertex last.vertex) (joinGroups groups prevGroup lastGroup) where
  partition := hp.partition_joinGroups h.partition
  symmetric := h.symmetric.contract prev.vertex last.vertex
  nonneg := h.nonneg.contract prev.vertex last.vertex
  cutWeight := fun side hside => by
    obtain ⟨hside, hheads⟩ := (hp.uniform_joinGroups h.partition).1 hside
    have hprev := mem_headSet.2 ⟨prevGroup, hp.prevGroup_mem, hp.prev_head⟩
    have hlast := mem_headSet.2 ⟨lastGroup, hp.lastGroup_mem, hp.last_head⟩
    rw [hp.last_head, hp.prev_head] at hheads
    have hne := hp.vertex_ne h.partition
    rw [hp.headSet_joinGroups h.partition,
      cutWeight_contract h.symmetric hprev hlast hne hheads.symm, h.cutWeight side hside]

/-! ### All phases -/

theorem Cut.exists_lighter_le (best : Option (Cut ℚ n)) (cut : Cut ℚ n) :
    ∃ c ∈ Cut.lighter best cut, c.weight ≤ cut.weight ∧ ∀ b ∈ best, c.weight ≤ b.weight := by
  cases best with
  | none => exact ⟨cut, rfl, le_rfl, by simp⟩
  | some b =>
    by_cases hlt : cut.weight < b.weight
    · exact ⟨cut, by simp [Cut.lighter, hlt], le_rfl, by simpa using hlt.le⟩
    · exact ⟨b, by simp [Cut.lighter, hlt], not_lt.1 hlt, by simp⟩

/-- The cut that is kept weighs what it cuts. -/
theorem Contracts.weight_eq (h : Contracts w₀ w groups)
    (hbest : ∀ c ∈ best, c.weight = w₀.cutWeight (fun a => decide (a ∈ c.side)) Finset.univ) :
    ∀ c ∈ cutPhases steps w groups best,
      c.weight = w₀.cutWeight (fun a => decide (a ∈ c.side)) Finset.univ := by
  induction steps generalizing w groups best with
  | zero => exact hbest
  | succ steps ih =>
    by_cases htwo : 2 ≤ groups.length
    · obtain ⟨prev, last, prevGroup, lastGroup, hp⟩ := h.partition.exists_phase htwo w
      rw [hp.cutPhases_succ h.partition]
      refine ih (h.phase hp) fun c hc => ?_
      rcases eq_or_mem_of_mem_lighter hc with rfl | hc
      · exact h.tie_eq hp
      · exact hbest c hc
    · rw [cutPhases_of_length_le_one _ _ h.partition (by omega)]
      exact hbest

theorem Contracts.two_le_length (h : Contracts w₀ w groups) (hside : Uniform side groups)
    {a b : Fin n} (hab : side a ≠ side b) : 2 ≤ groups.length := by
  obtain ⟨G, hG, ha⟩ := h.partition.exists_mem a
  obtain ⟨H, hH, hb⟩ := h.partition.exists_mem b
  have hne : G ≠ H := by
    rintro rfl
    exact hab ((hside G hG a ha).trans (hside G hG b hb).symm)
  obtain ⟨others, hperm⟩ := exists_perm_cons_cons hG hH hne
  rw [hperm.length_eq, List.length_cons, List.length_cons]
  omega

/-- The cut that is kept weighs no more than one kept before, and no more than any colouring with
two colours that leaves the groups whole. -/
theorem Contracts.exists_le (h : Contracts w₀ w groups) (hsteps : groups.length ≤ steps + 1)
    {x : ℚ} (hx : (∃ b ∈ best, b.weight ≤ x) ∨
      ∃ side, Uniform side groups ∧ (∃ a b, side a ≠ side b) ∧
        w₀.cutWeight side Finset.univ ≤ x) :
    ∃ c ∈ cutPhases steps w groups best, c.weight ≤ x := by
  induction steps generalizing w groups best with
  | zero =>
    rcases hx with hbest | ⟨side, hside, ⟨a, b, hab⟩, -⟩
    · exact hbest
    · have htwo := h.two_le_length hside hab
      omega
  | succ steps ih =>
    by_cases htwo : 2 ≤ groups.length
    · obtain ⟨prev, last, prevGroup, lastGroup, hp⟩ := h.partition.exists_phase htwo w
      have hlength := hp.length_joinGroups h.partition
      obtain ⟨c, hc, hcut, hkept⟩ := Cut.exists_lighter_le best ⟨last.tie, lastGroup.members⟩
      rw [hp.cutPhases_succ h.partition]
      refine ih (h.phase hp) (by omega) ?_
      rcases hx with ⟨b, hb, hbx⟩ | ⟨side, hside, htwice, hweight⟩
      · exact .inl ⟨c, hc, (hkept b hb).trans hbx⟩
      -- The phase has the answer if the colouring parts its last two groups.
      by_cases hheads : side lastGroup.head = side prevGroup.head
      · exact .inr ⟨side, (hp.uniform_joinGroups h.partition).2 ⟨hside, hheads⟩, htwice, hweight⟩
      · exact .inl ⟨c, hc, hcut.trans ((h.tie_le hp hside hheads).trans hweight)⟩
    · rw [cutPhases_of_length_le_one _ _ h.partition (by omega)]
      rcases hx with hbest | ⟨side, hside, ⟨a, b, hab⟩, -⟩
      · exact hbest
      · exact absurd (h.two_le_length hside hab) htwo

end Groups

/-! ### The cut of a graph -/

namespace Graph

variable {V : Type} [DecidableEq V]

/-- Records the weight of an edge between two vertices. -/
def recordEdge [Add W] (g : Graph V W) (w : WeightTable W g.vertices.length) (e : V × V × W) :
    WeightTable W g.vertices.length :=
  match g.vertices.finIdxOf? e.1, g.vertices.finIdxOf? e.2.1 with
  | some i, some j => w.addBoth i j e.2.2
  | _, _ => w

theorem weightTable_eq [Add W] [Zero W] (g : Graph V W) :
    g.weightTable = g.edges.foldl g.recordEdge (.ofFn fun _ _ => 0) := rfl

/-- An edge is recorded between its ends, if both are vertices. -/
theorem recordEdge_cases [Add W] (g : Graph V W) (w : WeightTable W g.vertices.length)
    (e : V × V × W) :
    (∃ i j, g.vertices.get i = e.1 ∧ g.vertices.get j = e.2.1 ∧
      g.recordEdge w e = w.addBoth i j e.2.2) ∨
    ((e.1 ∉ g.vertices ∨ e.2.1 ∉ g.vertices) ∧ g.recordEdge w e = w) := by
  rw [recordEdge]
  cases hsource : g.vertices.finIdxOf? e.1 with
  | none => exact .inr ⟨.inl (List.finIdxOf?_eq_none_iff.1 hsource), rfl⟩
  | some i =>
    cases htarget : g.vertices.finIdxOf? e.2.1 with
    | none => exact .inr ⟨.inr (List.finIdxOf?_eq_none_iff.1 htarget), rfl⟩
    | some j =>
      exact .inl ⟨i, j, (List.finIdxOf?_eq_some_iff.1 hsource).1,
        (List.finIdxOf?_eq_some_iff.1 htarget).1, rfl⟩

section Table

variable [AddCommMonoid W] {g : Graph V W} {S : Finset V}

/-- An edge from `a` to `b` leads from the set to the other vertices or back. -/
def Crosses (g : Graph V W) (S : Finset V) (a b : V) : Prop :=
  (a ∈ S ∧ b ∈ g.vertices.toFinset \ S) ∨ (a ∈ g.vertices.toFinset \ S ∧ b ∈ S)

omit [AddCommMonoid W] in
instance (g : Graph V W) (S : Finset V) (a b : V) : Decidable (g.Crosses S a b) :=
  inferInstanceAs (Decidable (_ ∨ _))

/-- The total weight of the edges in either direction between a set of vertices and the others. -/
def crossingWeight (g : Graph V W) (S : Finset V) : W :=
  ((g.edges.filter fun e => g.Crosses S e.1 e.2.1).map fun e => e.2.2).sum

/-- The colouring of the vertices, by their age, that tells a set from the others. -/
def sideOf (g : Graph V W) (S : Finset V) (i : Fin g.vertices.length) : Bool :=
  decide (g.vertices.get i ∈ S)

theorem symmetric_weightTable (g : Graph V W) : g.weightTable.Symmetric := by
  rw [weightTable_eq]
  refine List.foldlRecOn g.edges g.recordEdge ?_ fun w hw e _ => ?_
  · intro i j
    rw [between_ofFn, between_ofFn]
  · rcases g.recordEdge_cases w e with ⟨i, j, -, -, heq⟩ | ⟨-, heq⟩
    · rw [heq]
      exact hw.addBoth i j e.2.2
    · rwa [heq]

/-- Recording an edge adds its weight to the cuts that it crosses. -/
theorem cutWeight_recordEdge (hS : S ⊆ g.vertices.toFinset)
    (w : WeightTable W g.vertices.length) (e : V × V × W) :
    (g.recordEdge w e).cutWeight (g.sideOf S) Finset.univ =
      w.cutWeight (g.sideOf S) Finset.univ + if g.Crosses S e.1 e.2.1 then e.2.2 else 0 := by
  rcases g.recordEdge_cases w e with ⟨i, j, hsource, htarget, heq⟩ | ⟨habsent, heq⟩
  · -- Both ends are vertices, and the edge crosses if they are on different sides.
    have hcrosses : g.Crosses S e.1 e.2.1 ↔ g.sideOf S i ≠ g.sideOf S j := by
      have hi : e.1 ∈ g.vertices := hsource ▸ List.get_mem ..
      have hj : e.2.1 ∈ g.vertices := htarget ▸ List.get_mem ..
      simp only [Crosses, sideOf, hsource, htarget, Finset.mem_sdiff, List.mem_toFinset, hi, hj,
        true_and, ne_eq, decide_eq_decide]
      tauto
    rw [heq, cutWeight_addBoth]
    simp only [hcrosses]
  · -- An edge with an end that is missing is not recorded, and crosses nothing.
    have hno : ¬g.Crosses S e.1 e.2.1 := by
      have hmem : ∀ v ∈ S, v ∈ g.vertices := fun v hv => List.mem_toFinset.1 (hS hv)
      simp only [Crosses, Finset.mem_sdiff, List.mem_toFinset]
      rintro (⟨ha, hb, -⟩ | ⟨⟨ha, -⟩, hb⟩)
      · exact habsent.elim (fun h => h (hmem _ ha)) (fun h => h hb)
      · exact habsent.elim (fun h => h ha) (fun h => h (hmem _ hb))
    rw [heq, if_neg hno, add_zero]

/-- The table weighs cuts as the edges do. -/
theorem cutWeight_weightTable (hS : S ⊆ g.vertices.toFinset) :
    g.weightTable.cutWeight (g.sideOf S) Finset.univ = g.crossingWeight S := by
  have hfold : ∀ (es : List (V × V × W)) (w : WeightTable W g.vertices.length),
      (es.foldl g.recordEdge w).cutWeight (g.sideOf S) Finset.univ =
        w.cutWeight (g.sideOf S) Finset.univ +
          ((es.filter fun e => g.Crosses S e.1 e.2.1).map fun e => e.2.2).sum := by
    intro es
    induction es with
    | nil => simp
    | cons e es ih =>
      intro w
      rw [List.foldl_cons, ih, cutWeight_recordEdge hS, add_assoc]
      by_cases hcrosses : g.Crosses S e.1 e.2.1 <;> simp [hcrosses]
  rw [weightTable_eq, hfold, crossingWeight]
  simp [cutWeight, between_ofFn]

end Table

variable {g : Graph V ℚ}

theorem nonneg_weightTable (hw : ∀ e ∈ g.edges, 0 ≤ e.2.2) : g.weightTable.Nonneg := by
  rw [weightTable_eq]
  refine List.foldlRecOn g.edges g.recordEdge ?_ fun w hnonneg e he => ?_
  · intro i j
    rw [between_ofFn]
  · rcases g.recordEdge_cases w e with ⟨i, j, -, -, heq⟩ | ⟨-, heq⟩
    · rw [heq]
      exact hnonneg.addBoth i j (hw e he)
    · rwa [heq]

/-- A split of the vertices in two that weighs `w`, and no split weighs less. -/
structure IsMinimumCut (g : Graph V ℚ) (w : ℚ) (S : Finset V) : Prop where
  nonempty : S.Nonempty
  proper : S ⊂ g.vertices.toFinset
  weight : w = g.crossingWeight S
  le : ∀ T : Finset V, T.Nonempty → T ⊂ g.vertices.toFinset → w ≤ g.crossingWeight T

/-- Both sides of a split have a vertex. -/
theorem exists_sideOf_ne {T : Finset V} (hne : T.Nonempty) (hT : T ⊂ g.vertices.toFinset) :
    ∃ i j, g.sideOf T i ≠ g.sideOf T j := by
  obtain ⟨a, ha⟩ := hne
  obtain ⟨b, hb, hbT⟩ := Finset.exists_of_ssubset hT
  obtain ⟨i, rfl⟩ := List.get_of_mem (List.mem_toFinset.1 (hT.1 ha))
  obtain ⟨j, rfl⟩ := List.get_of_mem (List.mem_toFinset.1 hb)
  refine ⟨i, j, fun heq => hbT ?_⟩
  rw [sideOf, sideOf, decide_eq_decide] at heq
  exact heq.1 ha

/-- A graph of two or more vertices without negative weights has a cut, and it is a minimum cut. -/
theorem minCut?_isMinimum (g : Graph V ℚ) (htwo : 2 ≤ g.vertexCount)
    (hw : ∀ e ∈ g.edges, 0 ≤ e.2.2) : ∃ w side, g.minCut? = some (w, side) ∧ side.Nodup ∧
      g.IsMinimumCut w side.toFinset := by
  have hnodup : g.vertices.Nodup := g.forward.nodup_keys
  have hget : Function.Injective g.vertices.get := List.nodup_iff_injective_get.1 hnodup
  have hlength : g.vertices.length = g.vertexCount := g.forward.length_keys
  have hstart := contracts_singletons g.symmetric_weightTable (nonneg_weightTable hw)
  -- Any colouring with two colours bounds the weight of the cut, so there is a cut.
  have hle : ∀ side : Fin g.vertices.length → Bool, (∃ i j, side i ≠ side j) →
      ∃ c ∈ cutPhases g.vertices.length g.weightTable
        ((List.finRange g.vertices.length).map fun i => ⟨i, [i]⟩) none,
        c.weight ≤ g.weightTable.cutWeight side Finset.univ := by
    intro side htwice
    refine hstart.exists_le (by simp) (.inr ⟨side, ?_, htwice, le_rfl⟩)
    intro G hG a ha
    obtain ⟨i, -, rfl⟩ := List.mem_map.1 hG
    rw [List.mem_singleton.1 ha]
  obtain ⟨c, hc, -⟩ := hle (fun i => decide (i.val = 0))
    ⟨⟨0, by omega⟩, ⟨1, by omega⟩, by simp⟩
  have hsplits : c.Splits := (partition_singletons _).splits_of_mem_cutPhases (by simp) hc
  have hweight := hstart.weight_eq (by simp) c hc
  have hsubset : (c.side.map g.vertices.get).toFinset ⊆ g.vertices.toFinset := by
    intro v hv
    obtain ⟨i, -, rfl⟩ := List.mem_map.1 (List.mem_toFinset.1 hv)
    exact List.mem_toFinset.2 (List.get_mem ..)
  refine ⟨c.weight, c.side.map g.vertices.get, by simp [minCut?, Option.mem_def.1 hc],
    hsplits.nodup.map hget, ?_, ?_, ?_, ?_⟩
  · simpa using hsplits.nonempty
  · obtain ⟨i, hi⟩ := hsplits.proper
    refine (Finset.ssubset_iff_of_subset hsubset).2 ⟨g.vertices.get i, ?_, ?_⟩
    · exact List.mem_toFinset.2 (List.get_mem ..)
    · rwa [List.mem_toFinset, List.mem_map_of_injective hget]
  · have hside : (fun i => decide (i ∈ c.side)) =
        g.sideOf (c.side.map g.vertices.get).toFinset := by
      funext i
      rw [sideOf, decide_eq_decide, List.mem_toFinset, List.mem_map_of_injective hget]
    rw [← cutWeight_weightTable hsubset, ← hside]
    exact hweight
  · intro T hne hT
    obtain ⟨c', hc', hle'⟩ := hle (g.sideOf T) (exists_sideOf_ne hne hT)
    rw [Option.mem_unique hc' hc, cutWeight_weightTable hT.1] at hle'
    exact hle'

/-- Two triangles of heavy edges, joined by a light one. -/
def twoTriangles : Graph ℕ ℚ :=
  run [.addEdge 0 1 3, .addEdge 1 2 3, .addEdge 2 0 3, .addEdge 3 4 3, .addEdge 4 5 3,
    .addEdge 5 3 3, .addEdge 2 3 1]

theorem minCut?_isMinimum_twoTriangles :
    2 ≤ twoTriangles.vertexCount ∧ (∀ e ∈ twoTriangles.edges, 0 ≤ e.2.2) ∧
      twoTriangles.minCut? = some (1, [3, 4, 5]) ∧ twoTriangles.IsMinimumCut 1 {3, 4, 5} := by
  have htwo : 2 ≤ twoTriangles.vertexCount := by decide +kernel
  have hweights : ∀ e ∈ twoTriangles.edges, 0 ≤ e.2.2 := by decide +kernel
  have hcut : twoTriangles.minCut? = some (1, [3, 4, 5]) := by decide +kernel
  obtain ⟨w, side, hsome, -, hminimum⟩ := minCut?_isMinimum twoTriangles htwo hweights
  obtain ⟨rfl, rfl⟩ : 1 = w ∧ [3, 4, 5] = side := by simpa [hcut] using hsome
  exact ⟨htwo, hweights, hcut, hminimum⟩

end Graph

end PlanarSketch
