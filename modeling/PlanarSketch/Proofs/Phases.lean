/-
Each phase of a minimum cut takes every group once and joins the last two.

The groups always split the vertices, whatever the weights are and however
they compare: a sweep takes the vertices that stand for the groups in some
order, so the last two stand for different groups, and joining these leaves
groups that split the vertices again.

* `perm_sweep`: a sweep takes all that waits, each once;
* `CutGroup.Partition`: the groups split the vertices;
* `Phase`: how a phase ends, and that there is one while two groups are left
  (`CutGroup.Partition.exists_phase`);
* `Phase.cutPhases_succ`, `Phase.partition_joinGroups`: what a phase does;
* `CutGroup.Partition.splits_of_mem_cutPhases`: what all phases find has two
  sides.
-/
import Mathlib.Data.List.Nodup
import PlanarSketch.Graph.MinCut

namespace PlanarSketch

variable {W : Type} {n steps : Nat}

/-! ### Tables -/

theorem WeightTable.between_ofFn (f : Fin n → Fin n → W) (i j : Fin n) :
    (WeightTable.ofFn f).between i j = f i j := by
  have hget : ∀ {α : Type} (h : Fin n → α) (k : Fin n), (Vector.ofFn h).get k = h k :=
    fun h k => Vector.getElem_ofFn k.isLt
  rw [WeightTable.between, WeightTable.ofFn, hget, hget]

theorem WeightTable.between_contract [Add W] [Zero W] (w : WeightTable W n)
    (prev last k l : Fin n) : (w.contract prev last).between k l =
      if k = prev then if l = prev then 0 else w.between prev l + w.between last l
      else if l = prev then w.between prev k + w.between last k
      else w.between k l := between_ofFn ..

/-! ### Sweeps -/

section Sweeps

variable [Add W] {w : WeightTable W n} {taken : Waiting W n} {ws : List (Waiting W n)}

/-- What waits on after a vertex is taken, with the pull of that vertex added to its tie. -/
def stillWaiting (w : WeightTable W n) (taken : Waiting W n) (ws : List (Waiting W n)) :
    List (Waiting W n) :=
  (ws.filter fun x => x.vertex ≠ taken.vertex).map fun x =>
    { x with tie := x.tie + w.between taken.vertex x.vertex }

theorem map_vertex_stillWaiting (w : WeightTable W n) (taken : Waiting W n)
    (ws : List (Waiting W n)) : (stillWaiting w taken ws).map Waiting.vertex =
      (ws.map Waiting.vertex).filter fun v => v ≠ taken.vertex := by
  simp [stillWaiting, List.filter_map, Function.comp_def]

theorem nodup_stillWaiting (w : WeightTable W n) (taken : Waiting W n)
    (hws : (ws.map Waiting.vertex).Nodup) :
    ((stillWaiting w taken ws).map Waiting.vertex).Nodup := by
  rw [map_vertex_stillWaiting]
  exact hws.filter _

theorem perm_stillWaiting (hws : (ws.map Waiting.vertex).Nodup) (htaken : taken ∈ ws) :
    (ws.map Waiting.vertex).Perm
      (taken.vertex :: (stillWaiting w taken ws).map Waiting.vertex) := by
  have hmem : taken.vertex ∈ ws.map Waiting.vertex := List.mem_map_of_mem htaken
  have herase : (ws.map Waiting.vertex).erase taken.vertex =
      (stillWaiting w taken ws).map Waiting.vertex := by
    rw [map_vertex_stillWaiting, hws.erase_eq_filter]
    exact List.filter_congr fun v _ => by by_cases hv : v = taken.vertex <;> simp [hv]
  rw [← herase]
  exact List.perm_cons_erase hmem

theorem length_stillWaiting (hws : (ws.map Waiting.vertex).Nodup) (htaken : taken ∈ ws) :
    (stillWaiting w taken ws).length + 1 = ws.length := by
  have hlength := (perm_stillWaiting (w := w) hws htaken).length_eq
  simpa using hlength.symm

variable [LT W] [DecidableLT W]

omit [Add W] in
theorem strongest_cons (first x : Waiting W n) (rest : List (Waiting W n)) :
    strongest first (x :: rest) = strongest (if first.tie < x.tie then x else first) rest := rfl

omit [Add W] in
theorem strongest_mem (first : Waiting W n) (rest : List (Waiting W n)) :
    strongest first rest ∈ first :: rest := by
  induction rest generalizing first with
  | nil => exact List.mem_singleton_self first
  | cons x rest ih =>
    rw [strongest_cons]
    split
    · exact List.mem_cons_of_mem first (ih x)
    · rcases List.mem_cons.1 (ih first) with h | h
      · exact List.mem_cons.2 (.inl h)
      · exact List.mem_cons_of_mem first (List.mem_cons_of_mem x h)

theorem sweep_cons (w : WeightTable W n) (steps : Nat) (first : Waiting W n)
    (rest : List (Waiting W n)) : sweep w (steps + 1) (first :: rest) =
      strongest first rest ::
        sweep w steps (stillWaiting w (strongest first rest) (first :: rest)) := rfl

/-- A sweep takes all that waits, each vertex once. -/
theorem perm_sweep (w : WeightTable W n) (hws : (ws.map Waiting.vertex).Nodup)
    (hsteps : ws.length ≤ steps) :
    ((sweep w steps ws).map Waiting.vertex).Perm (ws.map Waiting.vertex) := by
  induction steps generalizing ws with
  | zero =>
    obtain rfl : ws = [] := List.length_eq_zero_iff.1 (by omega)
    exact .nil
  | succ steps ih =>
    cases ws with
    | nil => exact .nil
    | cons first rest =>
      have hmem := strongest_mem first rest
      have hlength := length_stillWaiting (w := w) hws hmem
      have hleft := ih (nodup_stillWaiting w (strongest first rest) hws) (by omega)
      rw [sweep_cons, List.map_cons]
      exact (hleft.cons _).trans (perm_stillWaiting hws hmem).symm

end Sweeps

/-! ### Groups -/

namespace CutGroup

/-- The groups split the vertices, and each is known by one of its members. -/
structure Partition (groups : List (CutGroup n)) : Prop where
  heads : (groups.map head).Nodup
  head_mem : ∀ G ∈ groups, G.head ∈ G.members
  members : (groups.flatMap members).Perm (List.finRange n)

variable {groups others : List (CutGroup n)} {G H prev last : CutGroup n}

theorem partition_singletons (n : Nat) :
    Partition ((List.finRange n).map fun i => (⟨i, [i]⟩ : CutGroup n)) where
  heads := by simpa [Function.comp_def] using List.nodup_finRange n
  head_mem := by simp
  members := by simp [List.flatMap_map]

theorem Partition.eq_of_head_eq (h : Partition groups) (hG : G ∈ groups) (hH : H ∈ groups)
    (he : G.head = H.head) : G = H := List.inj_on_of_nodup_map h.heads hG hH he

theorem Partition.perm (h : Partition groups) (hp : groups.Perm others) : Partition others where
  heads := (hp.map head).nodup h.heads
  head_mem := fun G hG => h.head_mem G (hp.symm.subset hG)
  members := (hp.flatMap_right CutGroup.members).symm.trans h.members

theorem Partition.nodup_flatMap (h : Partition groups) :
    (groups.flatMap CutGroup.members).Nodup :=
  h.members.symm.nodup (List.nodup_finRange n)

theorem Partition.exists_mem (h : Partition groups) (a : Fin n) : ∃ G ∈ groups, a ∈ G.members :=
  List.mem_flatMap.1 (h.members.symm.subset (List.mem_finRange a))

theorem Partition.nodup_members (h : Partition groups) (hG : G ∈ groups) : G.members.Nodup :=
  (List.nodup_flatMap.1 h.nodup_flatMap).1 G hG

/-- Two elements can be moved to the front. -/
theorem exists_perm_cons_cons {α : Type} {l : List α} {a b : α} (ha : a ∈ l) (hb : b ∈ l)
    (hne : a ≠ b) : ∃ others, l.Perm (a :: b :: others) := by
  obtain ⟨s, t, rfl⟩ := List.append_of_mem ha
  have hb' : b ∈ s ++ t := by simpa [hne.symm] using hb
  obtain ⟨s', t', hst⟩ := List.append_of_mem hb'
  refine ⟨s' ++ t', List.perm_middle.trans (.cons a ?_)⟩
  rw [hst]
  exact List.perm_middle

theorem Partition.disjoint (h : Partition groups) (hG : G ∈ groups) (hH : H ∈ groups)
    (hne : G ≠ H) : G.members.Disjoint H.members := by
  obtain ⟨others, hp⟩ := exists_perm_cons_cons hG hH hne
  have hpairs := (List.nodup_flatMap.1 (h.perm hp).nodup_flatMap).2
  exact (List.pairwise_cons.1 hpairs).1 H (List.mem_cons_self ..)

/-- A vertex is a member of one group only. -/
theorem Partition.mem_members_iff (h : Partition groups) (hG : G ∈ groups) (hH : H ∈ groups)
    {a : Fin n} (ha : a ∈ G.members) : a ∈ H.members ↔ G = H := by
  constructor
  · intro ha'
    by_contra hne
    exact h.disjoint hG hH hne ha ha'
  · rintro rfl
    exact ha

/-! ### Joining -/

/-- Joining two groups puts one in the place of both. -/
theorem perm_joinGroups (hheads : (groups.map head).Nodup)
    (hp : groups.Perm (last :: prev :: others)) : (joinGroups groups prev last).Perm
      (⟨prev.head, prev.members ++ last.members⟩ :: others) := by
  have hnodup := (hp.map head).nodup hheads
  simp only [List.map_cons, List.nodup_cons, List.mem_cons, List.mem_map, not_or, not_exists,
    not_and] at hnodup
  obtain ⟨⟨hne, hlast⟩, hprev, -⟩ := hnodup
  have hleft : (last :: prev :: others).filter (fun G => G.head ≠ last.head) = prev :: others := by
    simpa [Ne.symm hne] using hlast
  have hkept : (others.map fun G =>
      if G.head = prev.head then { G with members := G.members ++ last.members } else G) =
      others := by
    conv_rhs => rw [← List.map_id others]
    exact List.map_congr_left fun G hG => if_neg (hprev G hG)
  have hjoin := (hp.filter fun G => decide (G.head ≠ last.head)).map fun G =>
    if G.head = prev.head then { G with members := G.members ++ last.members } else G
  rw [hleft, List.map_cons, hkept, if_pos rfl] at hjoin
  exact hjoin

theorem Partition.join (h : Partition groups) (hp : groups.Perm (last :: prev :: others)) :
    Partition (joinGroups groups prev last) := by
  refine Partition.perm ?_ (perm_joinGroups h.heads hp).symm
  have h' := h.perm hp
  refine ⟨(List.nodup_cons.1 h'.heads).2, ?_, ?_⟩
  · intro G hG
    rcases List.mem_cons.1 hG with rfl | hG
    · exact List.mem_append_left _ (h'.head_mem prev (by simp))
    · exact h'.head_mem G (by simp [hG])
  · refine List.Perm.trans ?_ h'.members
    simp only [List.flatMap_cons, ← List.append_assoc]
    exact List.perm_append_comm.append_right _

end CutGroup

/-! ### Phases -/

open CutGroup

section Phases

variable [Add W] [Zero W] [LT W] [DecidableLT W] {w : WeightTable W n}
  {groups : List (CutGroup n)} {prev last : Waiting W n} {prevGroup lastGroup : CutGroup n}
  {best : Option (Cut W n)} {cut c : Cut W n}

/-- The order in which a phase takes the vertices that stand for the groups. -/
def phaseOrder (w : WeightTable W n) (groups : List (CutGroup n)) : List (Waiting W n) :=
  sweep w groups.length (groups.map fun G => ⟨G.head, 0⟩)

/-- The phase ends with `prev` and `last`, which stand for two of the groups. -/
structure Phase (w : WeightTable W n) (groups : List (CutGroup n)) (prev last : Waiting W n)
    (prevGroup lastGroup : CutGroup n) : Prop where
  order : ∃ before, phaseOrder w groups = before ++ [prev, last]
  perm : ∃ others, groups.Perm (lastGroup :: prevGroup :: others)
  prev_head : prevGroup.head = prev.vertex
  last_head : lastGroup.head = last.vertex

theorem perm_phaseOrder (h : Partition groups) (w : WeightTable W n) :
    ((phaseOrder w groups).map Waiting.vertex).Perm (groups.map head) := by
  have hstart : (groups.map fun G => (⟨G.head, 0⟩ : Waiting W n)).map Waiting.vertex =
      groups.map head := by simp
  rw [← hstart]
  refine perm_sweep w ?_ (by simp)
  rw [hstart]
  exact h.heads

omit [Add W] [Zero W] [LT W] [DecidableLT W] in
theorem CutGroup.Partition.find?_head (h : Partition groups) {G : CutGroup n} (hG : G ∈ groups) :
    (groups.find? fun H => H.head = G.head) = some G := by
  cases hfind : groups.find? fun H => H.head = G.head with
  | none =>
    have hno := List.find?_eq_none.1 hfind G hG
    simp at hno
  | some H =>
    have hhead : H.head = G.head := by simpa using List.find?_some hfind
    rw [h.eq_of_head_eq (List.mem_of_find?_eq_some hfind) hG hhead]

/-- While two groups are left there is a phase. -/
theorem CutGroup.Partition.exists_phase (h : Partition groups) (htwo : 2 ≤ groups.length)
    (w : WeightTable W n) : ∃ prev last prevGroup lastGroup,
      Phase w groups prev last prevGroup lastGroup := by
  have hperm := perm_phaseOrder h w
  have hlength := hperm.length_eq
  simp only [List.length_map] at hlength
  -- The sweep takes all groups, so it takes two at least, and has two last ones.
  obtain ⟨before, prev, last, horder⟩ : ∃ before prev last,
      phaseOrder w groups = before ++ [prev, last] := by
    rcases List.eq_nil_or_concat (phaseOrder w groups) with hnil | ⟨front, last, hfront⟩
    · simp [hnil] at hlength
      omega
    · rcases List.eq_nil_or_concat front with hnil | ⟨before, prev, hbefore⟩
      · simp [hfront, hnil] at hlength
        omega
      · exact ⟨before, prev, last, by simp [hfront, hbefore]⟩
  rw [horder] at hperm
  have hnodup := hperm.symm.nodup h.heads
  simp only [List.map_append, List.map_cons, List.map_nil] at hperm hnodup
  obtain ⟨prevGroup, hprevGroup, hprev⟩ := List.mem_map.1 (hperm.subset (by simp) :
    prev.vertex ∈ groups.map head)
  obtain ⟨lastGroup, hlastGroup, hlast⟩ := List.mem_map.1 (hperm.subset (by simp) :
    last.vertex ∈ groups.map head)
  -- The sweep takes no vertex twice, so these are two groups.
  have hne : lastGroup ≠ prevGroup := by
    intro he
    have hsame : prev.vertex = last.vertex := by rw [← hprev, ← hlast, he]
    have hpair := (List.nodup_append.1 hnodup).2.1
    simp [hsame] at hpair
  exact ⟨prev, last, prevGroup, lastGroup, ⟨before, horder⟩,
    exists_perm_cons_cons hlastGroup hprevGroup hne, hprev, hlast⟩

theorem Phase.prevGroup_mem (hp : Phase w groups prev last prevGroup lastGroup) :
    prevGroup ∈ groups := by
  obtain ⟨others, hperm⟩ := hp.perm
  exact hperm.symm.subset (by simp)

theorem Phase.lastGroup_mem (hp : Phase w groups prev last prevGroup lastGroup) :
    lastGroup ∈ groups := by
  obtain ⟨others, hperm⟩ := hp.perm
  exact hperm.symm.subset (by simp)

theorem Phase.prev_mem (hp : Phase w groups prev last prevGroup lastGroup) :
    prev.vertex ∈ groups.map head := by
  rw [← hp.prev_head]
  exact List.mem_map_of_mem hp.prevGroup_mem

theorem Phase.last_mem (hp : Phase w groups prev last prevGroup lastGroup) :
    last.vertex ∈ groups.map head := by
  rw [← hp.last_head]
  exact List.mem_map_of_mem hp.lastGroup_mem

theorem Phase.vertex_ne (hp : Phase w groups prev last prevGroup lastGroup)
    (h : Partition groups) : prev.vertex ≠ last.vertex := by
  obtain ⟨others, hperm⟩ := hp.perm
  have hnodup := (hperm.map head).nodup h.heads
  rw [← hp.prev_head, ← hp.last_head]
  intro heq
  simp [heq] at hnodup

/-- A phase proposes to cut the last group off, joins it with the one before and goes on. -/
theorem Phase.cutPhases_succ (hp : Phase w groups prev last prevGroup lastGroup)
    (h : Partition groups) (steps : Nat) (best : Option (Cut W n)) :
    cutPhases (steps + 1) w groups best =
      cutPhases steps (w.contract prev.vertex last.vertex) (joinGroups groups prevGroup lastGroup)
        (Cut.lighter best ⟨last.tie, lastGroup.members⟩) := by
  obtain ⟨before, horder⟩ := hp.order
  have hreverse : (sweep w groups.length (groups.map fun G => ⟨G.head, 0⟩)).reverse =
      last :: prev :: before.reverse := by
    show (phaseOrder w groups).reverse = _
    simp [horder]
  have hlast := h.find?_head hp.lastGroup_mem
  have hprev := h.find?_head hp.prevGroup_mem
  rw [hp.last_head] at hlast
  rw [hp.prev_head] at hprev
  rw [cutPhases, hreverse]
  simp only [hlast, hprev]

theorem Phase.partition_joinGroups (hp : Phase w groups prev last prevGroup lastGroup)
    (h : Partition groups) : Partition (joinGroups groups prevGroup lastGroup) := by
  obtain ⟨others, hperm⟩ := hp.perm
  exact h.join hperm

theorem Phase.length_joinGroups (hp : Phase w groups prev last prevGroup lastGroup)
    (h : Partition groups) :
    (joinGroups groups prevGroup lastGroup).length + 1 = groups.length := by
  obtain ⟨others, hperm⟩ := hp.perm
  rw [(perm_joinGroups h.heads hperm).length_eq, hperm.length_eq]
  rfl

/-- A single group ends the phases. -/
theorem cutPhases_of_length_le_one (steps : Nat) (w : WeightTable W n) (h : Partition groups)
    (hone : groups.length ≤ 1) (best : Option (Cut W n)) :
    cutPhases steps w groups best = best := by
  cases steps with
  | zero => rfl
  | succ steps =>
    have hlength := (perm_phaseOrder h w).length_eq
    simp only [List.length_map, phaseOrder] at hlength
    rw [cutPhases]
    split
    · rename_i hreverse
      have := congrArg List.length hreverse
      simp only [List.length_reverse, List.length_cons] at this
      omega
    · rfl

/-! ### What the phases find -/

omit [Add W] [Zero W] in
theorem eq_or_mem_of_mem_lighter (h : c ∈ Cut.lighter best cut) : c = cut ∨ c ∈ best := by
  cases best with
  | none => exact .inl (Option.some.inj h).symm
  | some b =>
    by_cases hlt : cut.weight < b.weight
    · rw [Cut.lighter, if_pos hlt] at h
      exact .inl (Option.some.inj h).symm
    · rw [Cut.lighter, if_neg hlt] at h
      exact .inr h

/-- The side is a part of the vertices, neither none nor all of them. -/
structure Cut.Splits (c : Cut W n) : Prop where
  nodup : c.side.Nodup
  nonempty : c.side ≠ []
  proper : ∃ a, a ∉ c.side

theorem Phase.splits (hp : Phase w groups prev last prevGroup lastGroup) (h : Partition groups) :
    Cut.Splits (⟨last.tie, lastGroup.members⟩ : Cut W n) where
  nodup := h.nodup_members hp.lastGroup_mem
  nonempty := List.ne_nil_of_mem (h.head_mem lastGroup hp.lastGroup_mem)
  proper := by
    have hhead := h.head_mem prevGroup hp.prevGroup_mem
    refine ⟨prevGroup.head, fun hmem => hp.vertex_ne h ?_⟩
    have heq := (h.mem_members_iff hp.prevGroup_mem hp.lastGroup_mem hhead).1 hmem
    rw [← hp.prev_head, ← hp.last_head, heq]

/-- Whatever the weights are, all phases together find a cut with two sides. -/
theorem CutGroup.Partition.splits_of_mem_cutPhases (h : Partition groups)
    (hbest : ∀ c ∈ best, c.Splits) (hc : c ∈ cutPhases steps w groups best) : c.Splits := by
  induction steps generalizing w groups best with
  | zero => exact hbest c hc
  | succ steps ih =>
    by_cases htwo : 2 ≤ groups.length
    · obtain ⟨prev, last, prevGroup, lastGroup, hp⟩ := h.exists_phase htwo w
      rw [hp.cutPhases_succ h] at hc
      refine ih (hp.partition_joinGroups h) (fun c hc => ?_) hc
      rcases eq_or_mem_of_mem_lighter hc with rfl | hc
      · exact hp.splits h
      · exact hbest c hc
    · rw [cutPhases_of_length_le_one _ _ h (by omega)] at hc
      exact hbest c hc

end Phases

end PlanarSketch
