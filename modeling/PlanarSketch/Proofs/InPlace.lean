/-
The minimum cut in place.

The computation runs on tables that change in place: the weights, what a sweep
has taken, the ties to it, and for every vertex the members of its group.
Vertices are plain indices, so each look-up and each change may miss its table.
None does, whatever the weights are and however they compare: the tables have a
place for every vertex, a sweep takes each active vertex once and so ends with
two different ones, and joining these leaves the weights between the vertices
that stay active as they should be.  What stands in the row of a vertex that is
no longer active does not matter, since nothing reads it again.

* `put?`, `weightAt?`, `putWeight?`: look-ups and changes that may miss;
* `SweepVars.step?`, `CutVars.phase?`, `Graph.minCutInPlace?`: the computation;
* `Holds`, `HoldsAll`: a table has an entry for every vertex;
* `SweepVars.Represents.sweep`, `CutVars.Represents.phase`: what is done in
  place is what is done to the groups;
* `Graph.minCutInPlace?_eq`, `Graph.loop_cutStage`: the whole computation, and
  the stages that it goes through;
* `Graph.minCut?_splits`: nothing is missed, and the cut has two sides.
-/
import Mathlib.Data.List.Induction
import Mathlib.Logic.Function.Basic
import PlanarSketch.Proofs.MinimumCut

namespace PlanarSketch

open CutGroup

variable {α V W : Type} {n : Nat}

/-! ### The computation -/

/-- Changes an entry of a table; there is no result if the table does not reach so far. -/
def put? (a : Array α) (i : Nat) (x : α) : Option (Array α) :=
  if i < a.size then some (a.setIfInBounds i x) else none

/-- An entry of a square table. -/
def weightAt? (t : Array (Array W)) (i j : Nat) : Option W := do
  let row ← t[i]?
  row[j]?

/-- Changes an entry of a square table. -/
def putWeight? (t : Array (Array W)) (i j : Nat) (x : W) : Option (Array (Array W)) := do
  let row ← t[i]?
  let row ← put? row j x
  put? t i row

/-- The indices that are not marked. -/
def unmarked? (marks : Array Bool) : List Nat → Option (List Nat)
  | [] => some []
  | v :: rest => do
    let marked ← marks[v]?
    let others ← unmarked? marks rest
    some (if marked then others else v :: others)

section Weights

variable [Add W] [Zero W] [LT W] [DecidableLT W]

/-- The first of the indices with the greatest key; keys that cannot be compared count as equal. -/
def greatest? (key : Array W) (first : Nat) (rest : List Nat) : Option Nat :=
  rest.foldlM (fun best v => do
    let x ← key[best]?
    let y ← key[v]?
    some (if x < y then v else best)) first

/-- Adds the weight between `sel` and an index that is not marked to the key of the index. -/
def pull? (t : Array (Array W)) (marks : Array Bool) (sel : Nat) (key : Array W) (v : Nat) :
    Option (Array W) := do
  let marked ← marks[v]?
  if marked then some key
  else
    let x ← key[v]?
    let y ← weightAt? t sel v
    put? key v (x + y)

/-- The variables of a sweep: what it has taken, the ties to that, the last two indices that it took
and the tie of the last one. -/
structure SweepVars (W : Type) where
  marks : Array Bool
  key : Array W
  prev : Nat
  last : Nat
  weight : W

/-- Takes the next index. -/
def SweepVars.step? (t : Array (Array W)) (active : List Nat) (s : SweepVars W) :
    Option (SweepVars W) := do
  match ← unmarked? s.marks active with
  | [] => some s
  | first :: rest =>
    let sel ← greatest? s.key first rest
    let marks ← put? s.marks sel true
    let weight ← s.key[sel]?
    let key ← active.foldlM (pull? t marks sel) s.key
    some ⟨marks, key, s.last, sel, weight⟩

/-- Takes a number of indices. -/
def SweepVars.steps? (t : Array (Array W)) (active : List Nat) :
    Nat → SweepVars W → Option (SweepVars W)
  | 0, s => some s
  | steps + 1, s => do
    let s ← s.step? t active
    steps? t active steps s

/-- The variables of the phases: the weights, the members of the groups, the indices that stand for
the groups and the best cut so far. -/
structure CutVars (W : Type) where
  table : Array (Array W)
  groups : Array (List Nat)
  active : List Nat
  best : Option (W × List Nat)

/-- A whole sweep. -/
def CutVars.sweep? (n : Nat) (s : CutVars W) : Option (SweepVars W) := do
  let first ← s.active.head?
  SweepVars.steps? s.table s.active s.active.length
    ⟨Array.replicate n false, Array.replicate n 0, first, first, 0⟩

/-- Adds an entry of the row of `last` to that of `prev` and mirrors the sum. -/
def joinAt? (prev last : Nat) (t : Array (Array W)) (v : Nat) : Option (Array (Array W)) := do
  let x ← weightAt? t prev v
  let y ← weightAt? t last v
  let t ← putWeight? t prev v (x + y)
  let z ← weightAt? t prev v
  putWeight? t v prev z

/-- The better of two cuts; the earlier one unless the later is strictly lighter. -/
def keepLighter (best : Option (W × List Nat)) (cut : W × List Nat) : Option (W × List Nat) :=
  match best with
  | none => some cut
  | some b => if cut.1 < b.1 then some cut else some b

/-- Sweeps, proposes to cut the last group off and joins it with the one before. -/
def CutVars.phase? (n : Nat) (s : CutVars W) : Option (CutVars W) := do
  let p ← s.sweep? n
  let side ← s.groups[p.last]?
  let groups ← put? s.groups p.last []
  let members ← groups[p.prev]?
  let groups ← put? groups p.prev (members ++ side)
  let table ← s.active.foldlM (joinAt? p.prev p.last) s.table
  let table ← putWeight? table p.prev p.prev 0
  some ⟨table, groups, s.active.filter fun v => v ≠ p.last, keepLighter s.best (p.weight, side)⟩

/-- Phases while two indices are active; there is no result if some still are in the end. -/
def CutVars.loop? (n : Nat) : Nat → CutVars W → Option (CutVars W)
  | 0, s => if 1 < s.active.length then none else some s
  | steps + 1, s =>
    if 1 < s.active.length then do
      let s ← s.phase? n
      loop? n steps s
    else some s

namespace Graph

variable [DecidableEq V]

/-- Adds the weight of an edge in both directions, unless its ends coincide. -/
def recordInPlace? (vertices : List V) (t : Array (Array W)) (e : V × V × W) :
    Option (Array (Array W)) :=
  match vertices.idxOf? e.1, vertices.idxOf? e.2.1 with
  | some i, some j =>
    if i = j then some t
    else do
      let x ← weightAt? t i j
      let t ← putWeight? t i j (x + e.2.2)
      let y ← weightAt? t j i
      putWeight? t j i (y + e.2.2)
  | _, _ => some t

/-- The variables before the first phase. -/
def cutStart? (g : Graph V W) : Option (CutVars W) := do
  let n := g.vertexCount
  let table ← g.edges.foldlM (recordInPlace? g.vertices) (Array.replicate n (Array.replicate n 0))
  some ⟨table, (Array.range n).map fun i => [i], List.range n, none⟩

/-- The variables after a number of phases. -/
def cutStage? (g : Graph V W) : Nat → Option (CutVars W)
  | 0 => g.cutStart?
  | k + 1 => do
    let s ← g.cutStage? k
    s.phase? g.vertexCount

/-- The lightest cut, computed in place. -/
def minCutInPlace? (g : Graph V W) : Option (Option (W × List V)) :=
  if g.vertexCount < 2 then some none
  else do
    let s ← g.cutStart?
    let s ← s.loop? g.vertexCount g.vertexCount
    some (s.best.map fun cut => (cut.1, cut.2.filterMap fun i => g.vertices[i]?))

end Graph

end Weights

/-! ### Tables that hold a value for every vertex -/

/-- The entries for the vertices are the values of a function. -/
def Holds (a : Array α) (f : Fin n → α) : Prop := ∀ i : Fin n, a[i.val]? = some (f i)

/-- The same for a square table. -/
def HoldsAll (t : Array (Array W)) (f : Fin n → Fin n → W) : Prop :=
  ∃ rows : Fin n → Array W, Holds t rows ∧ ∀ i, Holds (rows i) (f i)

section Tables

variable {a : Array α} {f : Fin n → α} {t : Array (Array W)} {u : Fin n → Fin n → W}

theorem holds_replicate (n : Nat) (x : α) : Holds (Array.replicate n x) fun _ : Fin n => x :=
  fun i => by rw [Array.getElem?_replicate, if_pos i.isLt]

theorem holdsAll_replicate (n : Nat) (x : W) :
    HoldsAll (Array.replicate n (Array.replicate n x)) fun _ _ : Fin n => x :=
  ⟨fun _ => Array.replicate n x, holds_replicate n _, fun _ => holds_replicate n x⟩

theorem Holds.exists_put (h : Holds a f) (i : Fin n) (x : α) :
    ∃ b, put? a i x = some b ∧ Holds b (Function.update f i x) := by
  obtain ⟨hi, -⟩ := Array.getElem?_eq_some_iff.1 (h i)
  refine ⟨a.setIfInBounds i x, if_pos hi, fun k => ?_⟩
  rw [Array.getElem?_setIfInBounds, if_pos hi]
  by_cases hk : k = i
  · simp [hk]
  · rw [if_neg fun e => hk (Fin.ext e.symm), Function.update_of_ne hk, h k]

theorem HoldsAll.weightAt_eq (h : HoldsAll t u) (i j : Fin n) : weightAt? t i j = some (u i j) := by
  obtain ⟨rows, ht, hrows⟩ := h
  simp [weightAt?, ht i, hrows i j]

theorem HoldsAll.exists_put (h : HoldsAll t u) (i j : Fin n) (x : W) :
    ∃ t', putWeight? t i j x = some t' ∧
      HoldsAll t' fun k l => if k = i ∧ l = j then x else u k l := by
  obtain ⟨rows, ht, hrows⟩ := h
  obtain ⟨row, hrow, hholds⟩ := (hrows i).exists_put j x
  obtain ⟨t', ht', hholds'⟩ := ht.exists_put i row
  refine ⟨t', by simp [putWeight?, ht i, hrow, ht'], _, hholds', fun k => ?_⟩
  by_cases hk : k = i
  · subst hk
    intro l
    simp [hholds l, Function.update_apply]
  · simpa [hk] using hrows k

end Tables

/-! ### Sweeps -/

section Sweeps

variable {marks : Array Bool} {marked : Fin n → Bool}

theorem Holds.unmarked_eq (h : Holds marks marked) (vs : List (Fin n)) :
    unmarked? marks (vs.map Fin.val) = some ((vs.filter fun v => !marked v).map Fin.val) := by
  induction vs with
  | nil => rfl
  | cons v rest ih =>
    rw [List.map_cons, unmarked?, h v, ih, List.filter_cons]
    cases marked v <;> rfl

variable [Add W] {t : Array (Array W)} {u : Fin n → Fin n → W} {key : Array W} {f : Fin n → W}

/-- A vertex that is not marked feels the pull. -/
theorem Holds.exists_pull (h : Holds key f) (ht : HoldsAll t u) (hmarks : Holds marks marked)
    (sel v : Fin n) : ∃ key', pull? t marks sel key v = some key' ∧
      Holds key' fun k => if k = v ∧ marked k = false then f k + u sel k else f k := by
  cases hm : marked v with
  | true =>
    refine ⟨key, by simp [pull?, hmarks v, hm], fun k => ?_⟩
    have hno : ¬(k = v ∧ marked k = false) := by
      rintro ⟨rfl, hk⟩
      rw [hm] at hk
      cases hk
    exact (h k).trans (congrArg some (if_neg hno).symm)
  | false =>
    obtain ⟨key', hkey', hholds⟩ := h.exists_put v (f v + u sel v)
    refine ⟨key', by simp [pull?, hmarks v, hm, h v, ht.weightAt_eq, hkey'], fun k => ?_⟩
    rw [hholds k, Function.update_apply]
    by_cases hk : k = v
    · simp [hk, hm]
    · simp [hk]

/-- So do all of a list. -/
theorem Holds.exists_pulls (h : Holds key f) (ht : HoldsAll t u) (hmarks : Holds marks marked)
    (sel : Fin n) {vs : List (Fin n)} (hvs : vs.Nodup) :
    ∃ key', (vs.map Fin.val).foldlM (pull? t marks sel) key = some key' ∧
      Holds key' fun v => if v ∈ vs ∧ marked v = false then f v + u sel v else f v := by
  induction vs generalizing key f with
  | nil => exact ⟨key, rfl, by simpa using h⟩
  | cons v rest ih =>
    obtain ⟨hv, hrest⟩ := List.nodup_cons.1 hvs
    obtain ⟨key₁, hkey₁, hholds⟩ := h.exists_pull ht hmarks sel v
    obtain ⟨key', hkey', hholds'⟩ := ih hholds hrest
    refine ⟨key', ?_, fun k => ?_⟩
    · rw [List.map_cons, List.foldlM_cons, hkey₁]
      exact hkey'
    · rw [hholds' k]
      by_cases hk : k = v
      · simp [hk, hv]
      · simp [hk]

variable [LT W] [DecidableLT W]

omit [Add W] in
/-- Among the keys of what waits the greatest is found where the strongest tie is. -/
theorem Holds.greatest_eq (h : Holds key f) (first : Waiting W n) (rest : List (Waiting W n))
    (hties : ∀ x ∈ first :: rest, f x.vertex = x.tie) :
    greatest? key first.vertex (rest.map fun x => x.vertex.val) =
      some (strongest first rest).vertex.val := by
  induction rest generalizing first with
  | nil => rfl
  | cons x rest ih =>
    have hfirst := hties first List.mem_cons_self
    have hx := hties x (List.mem_cons_of_mem _ List.mem_cons_self)
    have hbest : ∀ y ∈ (if first.tie < x.tie then x else first) :: rest, f y.vertex = y.tie := by
      intro y hy
      rcases List.mem_cons.1 hy with rfl | hy
      · split
        · exact hx
        · exact hfirst
      · exact hties y (List.mem_cons_of_mem _ (List.mem_cons_of_mem _ hy))
    rw [strongest_cons, ← ih _ hbest, greatest?, List.map_cons, List.foldlM_cons, h first.vertex,
      h x.vertex, hfirst, hx]
    by_cases hlt : first.tie < x.tie <;> simp [hlt, greatest?]

/-- The sweep has taken the vertices of the trail, the last one first, and the others wait. -/
structure SweepVars.Represents (s : SweepVars W) (heads : List (Fin n))
    (trail ws : List (Waiting W n)) : Prop where
  marks : Holds s.marks fun v => decide (v ∈ trail.map Waiting.vertex)
  key : ∃ f, Holds s.key f ∧ ∀ x ∈ ws, f x.vertex = x.tie
  waiting : ws.map Waiting.vertex = heads.filter fun v => v ∉ trail.map Waiting.vertex
  last : ∀ x ∈ trail.head?, s.last = x.vertex.val ∧ s.weight = x.tie
  prev : ∀ x ∈ trail.tail.head?, s.prev = x.vertex.val

variable {s : SweepVars W} {w : WeightTable W n} {heads : List (Fin n)}
  {trail rest ws : List (Waiting W n)} {first : Waiting W n}

/-- A step takes what has the strongest tie. -/
theorem SweepVars.Represents.step (h : s.Represents heads trail (first :: rest))
    (ht : HoldsAll t u) (hu : ∀ a ∈ heads, ∀ b ∈ heads, u a b = w.between a b)
    (hheads : heads.Nodup) : ∃ s', s.step? t (heads.map Fin.val) = some s' ∧
      s'.Represents heads (strongest first rest :: trail)
        (stillWaiting w (strongest first rest) (first :: rest)) := by
  obtain ⟨f, hkey, hties⟩ := h.key
  -- What is not marked is what waits, in the same order.
  have hopen : unmarked? s.marks (heads.map Fin.val) =
      some (first.vertex.val :: rest.map fun x => x.vertex.val) := by
    have hwaiting : (heads.filter fun v => !decide (v ∈ trail.map Waiting.vertex)) =
        (first :: rest).map Waiting.vertex := by
      rw [h.waiting]
      exact List.filter_congr fun v _ => (decide_not ..).symm
    rw [h.marks.unmarked_eq, hwaiting, List.map_map]
    rfl
  -- The key array holds the ties of what waits, so its greatest entry is the strongest tie.
  have hgreatest := hkey.greatest_eq first rest hties
  generalize htaken : strongest first rest = taken at hgreatest ⊢
  have hmem : taken ∈ first :: rest := htaken ▸ strongest_mem first rest
  have hws : ∀ x ∈ first :: rest, x.vertex ∈ heads ∧ x.vertex ∉ trail.map Waiting.vertex := by
    intro x hx
    have hx' : x.vertex ∈ (first :: rest).map Waiting.vertex := List.mem_map_of_mem hx
    rw [h.waiting, List.mem_filter, decide_eq_true_eq] at hx'
    exact hx'
  -- The one taken is marked, and then its edges are added to the ties of the others.
  obtain ⟨marks', hmarks', hholds⟩ := h.marks.exists_put taken.vertex true
  have hmarked : Holds marks' fun v => decide (v ∈ (taken :: trail).map Waiting.vertex) := by
    intro v
    rw [hholds v, Function.update_apply]
    by_cases hv : v = taken.vertex <;> simp [hv]
  obtain ⟨key', hkey', hpulled⟩ := hkey.exists_pulls ht hmarked taken.vertex hheads
  refine ⟨⟨marks', key', s.last, taken.vertex, f taken.vertex⟩, ?_, hmarked,
    ⟨_, hpulled, fun x hx => ?_⟩, ?_, ?_, ?_⟩
  · simp [SweepVars.step?, hopen, hgreatest, hmarks', hkey taken.vertex, hkey']
  · -- The ties of what still waits have grown by the edge to the one taken.
    obtain ⟨y, hy, rfl⟩ := List.mem_map.1 hx
    obtain ⟨hy, hne⟩ := List.mem_filter.1 hy
    obtain ⟨hyheads, hytrail⟩ := hws y hy
    have hout : y.vertex ∉ (taken :: trail).map Waiting.vertex := by
      rw [List.map_cons, List.mem_cons, not_or]
      exact ⟨of_decide_eq_true hne, hytrail⟩
    show (if y.vertex ∈ heads ∧ _ then _ else _) = y.tie + w.between taken.vertex y.vertex
    rw [if_pos ⟨hyheads, decide_eq_false hout⟩, hties y hy, hu _ (hws taken hmem).1 _ hyheads]
  · rw [map_vertex_stillWaiting, h.waiting, List.filter_filter]
    refine List.filter_congr fun v _ => ?_
    simp
  · rintro x hx
    obtain rfl : taken = x := by simpa using hx
    exact ⟨rfl, hties taken hmem⟩
  · intro x hx
    exact (h.last x hx).1

/-- Taking all that waits is a sweep. -/
theorem SweepVars.Represents.sweep (h : s.Represents heads trail ws) (ht : HoldsAll t u)
    (hu : ∀ a ∈ heads, ∀ b ∈ heads, u a b = w.between a b) (hheads : heads.Nodup) :
    ∃ s', s.steps? t (heads.map Fin.val) ws.length = some s' ∧
      s'.Represents heads ((PlanarSketch.sweep w ws.length ws).reverse ++ trail) [] := by
  -- By induction on the number that waits: each step takes one.
  induction hk : ws.length generalizing s trail ws with
  | zero =>
    obtain rfl := List.length_eq_zero_iff.1 hk
    exact ⟨s, rfl, h⟩
  | succ k ih =>
    match ws, hk with
    | first :: rest, hk =>
      have hnodup : ((first :: rest).map Waiting.vertex).Nodup := h.waiting ▸ hheads.filter _
      have hlength := length_stillWaiting (w := w) hnodup (strongest_mem first rest)
      obtain ⟨s₁, hs₁, h₁⟩ := h.step ht hu hheads
      obtain ⟨s', hs', h'⟩ := ih h₁ (by omega)
      refine ⟨s', ?_, ?_⟩
      · rw [SweepVars.steps?, hs₁]
        exact hs'
      · rw [sweep_cons, List.reverse_cons, List.append_assoc]
        exact h'

end Sweeps

/-! ### Phases -/

section Phases

variable [Add W] {t : Array (Array W)} {u : Fin n → Fin n → W} {prev last : Fin n}

/-- The weights after the row of `last` has been added to that of `prev` for some of the vertices,
and mirrored. -/
def joinedFor (u : Fin n → Fin n → W) (prev last : Fin n) (vs : List (Fin n)) (k l : Fin n) : W :=
  if k = prev ∧ l ∈ vs then u prev l + u last l
  else if l = prev ∧ k ∈ vs then u prev k + u last k
  else u k l

/-- One vertex more. -/
theorem joinedFor_append {vs : List (Fin n)} {v k l : Fin n} (hkl : ¬(k = prev ∧ l = prev)) :
    joinedFor u prev last (vs ++ [v]) k l =
      if k = v ∧ l = prev ∨ k = prev ∧ l = v then u prev v + u last v
      else joinedFor u prev last vs k l := by
  by_cases hk : k = prev
  · have hl : l ≠ prev := fun e => hkl ⟨hk, e⟩
    by_cases hlv : l = v <;> simp [joinedFor, hk, hl, hlv]
  · by_cases hl : l = prev
    · by_cases hkv : k = v
      · subst hkv
        simp [joinedFor, hk, hl]
      · simp [joinedFor, hk, hl, hkv]
    · simp [joinedFor, hk, hl]

/-- Between the vertices that are gone through this is what joining leaves, `prev` with itself
apart. -/
theorem joinedFor_eq_contract [Zero W] {w : WeightTable W n} {vs : List (Fin n)} {k l : Fin n}
    (hu : ∀ a ∈ vs, ∀ b ∈ vs, u a b = w.between a b) (hprev : prev ∈ vs) (hlast : last ∈ vs)
    (hk : k ∈ vs) (hl : l ∈ vs) (hkl : ¬(k = prev ∧ l = prev)) :
    joinedFor u prev last vs k l = (w.contract prev last).between k l := by
  rw [joinedFor, WeightTable.between_contract, hu _ hprev _ hk, hu _ hprev _ hl, hu _ hlast _ hk,
    hu _ hlast _ hl, hu _ hk _ hl]
  simp only [hk, hl, and_true]
  by_cases hkp : k = prev
  · rw [if_pos hkp, if_pos hkp, if_neg fun hlp => hkl ⟨hkp, hlp⟩]
  · rw [if_neg hkp, if_neg hkp]

/-- Joining entry after entry changes them as joining all at once does.  Only the entry of `prev`
with itself depends on the order. -/
theorem HoldsAll.exists_join (h : HoldsAll t u) (hne : prev ≠ last) {vs : List (Fin n)}
    (hvs : vs.Nodup) : ∃ t' u', (vs.map Fin.val).foldlM (joinAt? prev last) t = some t' ∧
      HoldsAll t' u' ∧ ∀ k l, ¬(k = prev ∧ l = prev) → u' k l = joinedFor u prev last vs k l := by
  induction vs using List.reverseRecOn with
  | nil => exact ⟨t, u, rfl, h, fun k l _ => by simp [joinedFor]⟩
  | append_singleton vs v ih =>
    obtain ⟨hvs, -, hnot⟩ := List.nodup_append.1 hvs
    have hv : v ∉ vs := fun hmem => hnot v hmem v (List.mem_singleton_self v) rfl
    obtain ⟨t₁, u₁, ht₁, h₁, hu₁⟩ := ih hvs
    obtain ⟨t₂, ht₂, h₂⟩ := h₁.exists_put prev v (u₁ prev v + u₁ last v)
    obtain ⟨t₃, ht₃, h₃⟩ := h₂.exists_put v prev (u₁ prev v + u₁ last v)
    refine ⟨t₃, _, ?_, h₃, fun k l hkl => ?_⟩
    · rw [List.map_append, List.foldlM_append, ht₁]
      simp [joinAt?, h₁.weightAt_eq, ht₂, h₂.weightAt_eq, ht₃]
    · rw [joinedFor_append hkl, hu₁ k l hkl]
      by_cases hvp : v = prev
      · have hno : ¬(k = v ∧ l = prev) ∧ ¬(k = prev ∧ l = v) := by
          rw [hvp]
          exact ⟨hkl, hkl⟩
        rw [if_neg hno.1, if_neg hno.2, if_neg (not_or.2 hno)]
      · -- The two entries that are read have not changed.
        have hprev : u₁ prev v = u prev v := by
          rw [hu₁ _ _ fun e => hvp e.2]
          simp [joinedFor, hv, hvp]
        have hlast : u₁ last v = u last v := by
          rw [hu₁ _ _ fun e => hvp e.2]
          simp [joinedFor, hne.symm, hvp]
        rw [hprev, hlast]
        by_cases hfirst : k = v ∧ l = prev <;> simp [hfirst]

theorem map_head_joinGroups (groups : List (CutGroup n)) (prev last : CutGroup n) :
    (joinGroups groups prev last).map head = (groups.map head).filter fun a => a ≠ last.head := by
  have hhead : ∀ G : CutGroup n, (if G.head = prev.head then
      { G with members := G.members ++ last.members } else G).head = G.head := fun G => by
    split <;> rfl
  rw [joinGroups, List.map_map, List.filter_map]
  exact List.map_congr_left fun G _ => hhead G

variable [Zero W] [LT W] [DecidableLT W] {s : CutVars W} {w : WeightTable W n}
  {groups : List (CutGroup n)} {best : Option (Cut W n)} {x y : Waiting W n}
  {prevGroup lastGroup : CutGroup n}

/-- A cut by its weight and the indices of its side. -/
def Cut.indexed (c : Cut W n) : W × List Nat := (c.weight, c.side.map Fin.val)

/-- The variables hold the weights between the vertices that stand for the groups, the members of
these groups and the best cut. -/
structure CutVars.Represents (s : CutVars W) (w : WeightTable W n) (groups : List (CutGroup n))
    (best : Option (Cut W n)) : Prop where
  table : ∃ u, HoldsAll s.table u ∧
    ∀ a ∈ groups.map head, ∀ b ∈ groups.map head, u a b = w.between a b
  members : ∃ m : Fin n → List Nat, Holds s.groups m ∧
    ∀ G ∈ groups, m G.head = G.members.map Fin.val
  active : s.active = (groups.map head).map Fin.val
  best : s.best = best.map Cut.indexed

/-- A sweep ends with the last two vertices of the phase. -/
theorem CutVars.Represents.sweep (h : s.Represents w groups best) (hpart : Partition groups)
    (hp : Phase w groups x y prevGroup lastGroup) :
    ∃ p, s.sweep? n = some p ∧ p.prev = x.vertex.val ∧ p.last = y.vertex.val ∧
      p.weight = y.tie := by
  obtain ⟨u, ht, hu⟩ := h.table
  obtain ⟨before, horder⟩ := hp.order
  obtain ⟨a, ha⟩ : ∃ a, s.active.head? = some a := by
    have hmem : y.vertex.val ∈ s.active := by
      rw [h.active]
      exact List.mem_map_of_mem hp.last_mem
    exact ⟨_, List.head?_eq_some_head (List.ne_nil_of_mem hmem)⟩
  -- Nothing is taken yet, and all wait without a tie.
  have hstart : SweepVars.Represents
      ⟨Array.replicate n false, Array.replicate n 0, a, a, 0⟩ (groups.map head) []
      (groups.map fun G => (⟨G.head, 0⟩ : Waiting W n)) := by
    refine ⟨holds_replicate n false, ⟨_, holds_replicate n 0, fun x hx => ?_⟩, ?_, ?_, ?_⟩
    · obtain ⟨G, -, rfl⟩ := List.mem_map.1 hx
      rfl
    · simp [Function.comp_def]
    · simp
    · simp
  obtain ⟨p, hsteps, hrep⟩ := hstart.sweep ht hu hpart.heads
  have horder' : (PlanarSketch.sweep w (groups.map fun G => (⟨G.head, 0⟩ : Waiting W n)).length
      (groups.map fun G => ⟨G.head, 0⟩)).reverse ++ [] = y :: x :: before.reverse := by
    rw [List.length_map, List.append_nil]
    show (phaseOrder w groups).reverse = _
    simp [horder]
  rw [horder'] at hrep
  refine ⟨p, ?_, hrep.prev x rfl, hrep.last y rfl⟩
  rw [CutVars.sweep?, ha, h.active]
  simpa using hsteps

omit [Add W] [Zero W] in
theorem keepLighter_indexed (best : Option (Cut W n)) (c : Cut W n) :
    keepLighter (best.map Cut.indexed) c.indexed = (Cut.lighter best c).map Cut.indexed := by
  cases best with
  | none => rfl
  | some b =>
    by_cases hlt : c.weight < b.weight <;> simp [keepLighter, Cut.lighter, Cut.indexed, hlt]

/-- The members of the last group move to the one before. -/
theorem Phase.members_joinGroups (hp : Phase w groups x y prevGroup lastGroup)
    (hpart : Partition groups) {m : Fin n → List Nat}
    (hmembers : ∀ G ∈ groups, m G.head = G.members.map Fin.val) :
    ∀ G ∈ joinGroups groups prevGroup lastGroup,
      Function.update (Function.update m y.vertex []) x.vertex (m x.vertex ++ m y.vertex) G.head =
        G.members.map Fin.val := by
  intro G hG
  obtain ⟨H, hH, rfl⟩ := List.mem_map.1 hG
  obtain ⟨hH, hkept⟩ := List.mem_filter.1 hH
  by_cases hjoin : H.head = prevGroup.head
  · obtain rfl := hpart.eq_of_head_eq hH hp.prevGroup_mem hjoin
    rw [if_pos rfl, hp.prev_head, Function.update_self, ← hp.prev_head, ← hp.last_head,
      hmembers H hH, hmembers _ hp.lastGroup_mem, List.map_append]
  · rw [if_neg hjoin, Function.update_of_ne (hp.prev_head ▸ hjoin),
      Function.update_of_ne (hp.last_head ▸ of_decide_eq_true hkept), hmembers H hH]

/-- A phase in place is a phase of the groups. -/
theorem CutVars.Represents.phase (h : s.Represents w groups best) (hpart : Partition groups)
    (hp : Phase w groups x y prevGroup lastGroup) : ∃ s', s.phase? n = some s' ∧
      s'.Represents (w.contract x.vertex y.vertex) (joinGroups groups prevGroup lastGroup)
        (Cut.lighter best ⟨y.tie, lastGroup.members⟩) := by
  obtain ⟨p, hsweep, hprev, hlast, hweight⟩ := h.sweep hpart hp
  obtain ⟨u, ht, hu⟩ := h.table
  obtain ⟨m, hm, hmembers⟩ := h.members
  have hne := hp.vertex_ne hpart
  have hside : m y.vertex = lastGroup.members.map Fin.val := by
    rw [← hp.last_head, hmembers _ hp.lastGroup_mem]
  -- The last group is emptied into the one before it.
  obtain ⟨groups₁, hput₁, hm₁⟩ := hm.exists_put y.vertex []
  obtain ⟨groups₂, hput₂, hm₂⟩ := hm₁.exists_put x.vertex (m x.vertex ++ m y.vertex)
  have hkeep : groups₁[x.vertex.val]? = some (m x.vertex) := by
    rw [hm₁, Function.update_of_ne hne]
  -- The rows of the two are added up, and the diagonal is cleared.
  obtain ⟨t₁, u₁, hfold, ht₁, hu₁⟩ := ht.exists_join hne hpart.heads
  obtain ⟨t₂, hput, ht₂⟩ := ht₁.exists_put x.vertex x.vertex 0
  have hheads : (joinGroups groups prevGroup lastGroup).map head =
      (groups.map head).filter fun a => a ≠ y.vertex := by
    rw [map_head_joinGroups, hp.last_head]
  refine ⟨⟨t₂, groups₂, ((joinGroups groups prevGroup lastGroup).map head).map Fin.val,
    (Cut.lighter best ⟨y.tie, lastGroup.members⟩).map Cut.indexed⟩,
    ?_, ⟨_, ht₂, fun a ha b hb => ?_⟩, ⟨_, hm₂, fun G hG => ?_⟩, rfl, rfl⟩
  · have hactive : ((groups.map head).map Fin.val).filter (fun v => v ≠ y.vertex.val) =
        ((joinGroups groups prevGroup lastGroup).map head).map Fin.val := by
      rw [hheads, List.filter_map]
      simp [Function.comp_def, Fin.val_inj]
    rw [CutVars.phase?, hsweep, ← keepLighter_indexed, ← h.best, Cut.indexed, ← hside]
    simp only [Option.bind_eq_bind, Option.bind_some, hprev, hlast, hweight, hm y.vertex, hput₁,
      hkeep, hput₂, h.active, hfold, hput, hactive]
  · -- The table is that of the contracted weights wherever both ends are active.
    rw [hheads, List.mem_filter] at ha hb
    by_cases hab : a = x.vertex ∧ b = x.vertex
    · simp only [hab.1, hab.2, and_self, if_true, WeightTable.between_contract]
    · rw [if_neg hab, hu₁ a b hab]
      exact joinedFor_eq_contract hu hp.prev_mem hp.last_mem ha.1 hb.1 hab
  · exact hp.members_joinGroups hpart hmembers G hG

omit [Add W] [Zero W] [LT W] [DecidableLT W] in
theorem CutVars.Represents.length_active (h : s.Represents w groups best) :
    s.active.length = groups.length := by
  rw [h.active, List.length_map, List.length_map]

/-- All phases in place are all phases of the groups, and they come to an end. -/
theorem CutVars.Represents.loop (h : s.Represents w groups best) (hpart : Partition groups)
    {steps : Nat} (hsteps : groups.length ≤ steps + 1) : ∃ s', s.loop? n steps = some s' ∧
      s'.best = (cutPhases steps w groups best).map Cut.indexed := by
  -- A phase leaves one group less, so the steps suffice.
  induction steps generalizing s w groups best with
  | zero =>
    refine ⟨s, ?_, h.best⟩
    rw [CutVars.loop?, if_neg (by rw [h.length_active]; omega)]
  | succ steps ih =>
    by_cases htwo : 2 ≤ groups.length
    · obtain ⟨x, y, prevGroup, lastGroup, hp⟩ := hpart.exists_phase htwo w
      obtain ⟨s₁, hs₁, h₁⟩ := h.phase hpart hp
      have hlength := hp.length_joinGroups hpart
      obtain ⟨s', hs', hbest⟩ := ih h₁ (hp.partition_joinGroups hpart) (by omega)
      refine ⟨s', ?_, ?_⟩
      · rw [CutVars.loop?, if_pos (by rw [h.length_active]; omega), hs₁]
        exact hs'
      · rw [hp.cutPhases_succ hpart, hbest]
    · refine ⟨s, ?_, ?_⟩
      · rw [CutVars.loop?, if_neg (by rw [h.length_active]; omega)]
      · rw [cutPhases_of_length_le_one _ _ hpart (by omega), h.best]

/-- While two groups are left, some cut is found. -/
theorem CutGroup.Partition.isSome_cutPhases {steps : Nat} (h : Partition groups)
    (hfound : best.isSome ∨ 2 ≤ groups.length ∧ 0 < steps) :
    (cutPhases steps w groups best).isSome := by
  induction steps generalizing w groups best with
  | zero => exact hfound.elim id fun h => absurd h.2 (Nat.lt_irrefl 0)
  | succ steps ih =>
    by_cases htwo : 2 ≤ groups.length
    · obtain ⟨x, y, prevGroup, lastGroup, hp⟩ := h.exists_phase htwo w
      rw [hp.cutPhases_succ h]
      refine ih (hp.partition_joinGroups h) (.inl ?_)
      cases best with
      | none => rfl
      | some b => by_cases hlt : y.tie < b.weight <;> simp [Cut.lighter, hlt]
    · rw [cutPhases_of_length_le_one _ _ h (by omega)]
      exact hfound.elim id fun h => absurd h.1 htwo

end Phases

/-! ### Cuts of graphs -/

namespace Graph

theorem vertexCount_eq (g : Graph V W) : g.vertexCount = g.vertices.length :=
  g.forward.length_keys.symm

variable [DecidableEq V] [Add W] {g : Graph V W}

/-- Recording an edge in place. -/
theorem exists_recordInPlace {t : Array (Array W)} {w : WeightTable W g.vertices.length}
    (h : HoldsAll t w.between) (e : V × V × W) :
    ∃ t', recordInPlace? g.vertices t e = some t' ∧ HoldsAll t' (g.recordEdge w e).between := by
  rw [recordInPlace?, recordEdge, List.idxOf?_eq_map_finIdxOf?_val,
    List.idxOf?_eq_map_finIdxOf?_val]
  -- An edge with an end that is missing is recorded by neither, and neither records a loop.
  cases hsource : g.vertices.finIdxOf? e.1 with
  | none => exact ⟨t, rfl, h⟩
  | some i =>
    cases htarget : g.vertices.finIdxOf? e.2.1 with
    | none => exact ⟨t, rfl, h⟩
    | some j =>
      by_cases hij : i = j
      · exact ⟨t, by simp [hij], by simpa [WeightTable.addBoth, hij] using h⟩
      · obtain ⟨t₁, ht₁, h₁⟩ := h.exists_put i j (w.between i j + e.2.2)
        obtain ⟨t₂, ht₂, h₂⟩ := h₁.exists_put j i (w.between j i + e.2.2)
        -- The two entries are written one after the other; they are different ones.
        have hsum : (w.addBoth i j e.2.2).between = fun k l =>
            if k = j ∧ l = i then w.between j i + e.2.2
            else if k = i ∧ l = j then w.between i j + e.2.2 else w.between k l := by
          funext k l
          rw [WeightTable.addBoth, if_neg hij, WeightTable.between_ofFn]
          by_cases hkl : k = i ∧ l = j
          · simp [hkl.1, hkl.2, hij]
          · by_cases hlk : k = j ∧ l = i <;> simp [hkl, hlk]
        refine ⟨t₂, by simp [Fin.val_inj, hij, h.weightAt_eq, ht₁, h₁.weightAt_eq, ht₂], ?_⟩
        show HoldsAll t₂ (w.addBoth i j e.2.2).between
        rw [hsum]
        exact h₂

theorem exists_foldlM_recordInPlace (es : List (V × V × W)) {t : Array (Array W)}
    {w : WeightTable W g.vertices.length} (h : HoldsAll t w.between) :
    ∃ t', es.foldlM (recordInPlace? g.vertices) t = some t' ∧
      HoldsAll t' (es.foldl g.recordEdge w).between := by
  induction es generalizing t w with
  | nil => exact ⟨t, rfl, h⟩
  | cons e es ih =>
    obtain ⟨t₁, ht₁, h₁⟩ := exists_recordInPlace h e
    obtain ⟨t', ht', h'⟩ := ih h₁
    refine ⟨t', ?_, h'⟩
    rw [List.foldlM_cons, ht₁]
    exact ht'

variable [Zero W]

/-- The table of the weights is made in place. -/
theorem exists_cutStart (g : Graph V W) : ∃ s, g.cutStart? = some s ∧
    s.Represents g.weightTable ((List.finRange g.vertices.length).map fun i => ⟨i, [i]⟩) none := by
  have hzero : (WeightTable.ofFn fun _ _ => (0 : W)).between =
      fun _ _ : Fin g.vertices.length => (0 : W) := by
    funext i j
    rw [WeightTable.between_ofFn]
  obtain ⟨t, ht, hholds⟩ := exists_foldlM_recordInPlace g.edges
    (hzero ▸ holdsAll_replicate g.vertices.length (0 : W))
  rw [← weightTable_eq] at hholds
  refine ⟨_, by rw [cutStart?, vertexCount_eq, ht]; rfl, ⟨_, hholds, fun _ _ _ _ => rfl⟩,
    ⟨fun i => [i.val], fun i => ?_, fun G hG => ?_⟩, ?_, rfl⟩
  · simp
  · obtain ⟨i, -, rfl⟩ := List.mem_map.1 hG
    rfl
  · simp [Function.comp_def]

variable [LT W] [DecidableLT W]

/-- Each phase starts with one group less than the one before. -/
theorem exists_cutStage (g : Graph V W) {k : Nat} (hk : k < g.vertexCount) :
    ∃ s w groups best, g.cutStage? k = some s ∧
      s.Represents (n := g.vertices.length) w groups best ∧ Partition groups ∧
      groups.length + k = g.vertexCount := by
  induction k with
  | zero =>
    obtain ⟨s, hs, h⟩ := g.exists_cutStart
    exact ⟨s, _, _, _, hs, h, partition_singletons _, by simp [vertexCount_eq]⟩
  | succ k ih =>
    obtain ⟨s, w, groups, best, hs, h, hpart, hgroups⟩ := ih (by omega)
    obtain ⟨x, y, prevGroup, lastGroup, hp⟩ := hpart.exists_phase (by omega) w
    obtain ⟨s', hs', h'⟩ := h.phase hpart hp
    have hjoin := hp.length_joinGroups hpart
    refine ⟨s', _, _, _, ?_, h', hp.partition_joinGroups hpart, by omega⟩
    rw [cutStage?, hs, vertexCount_eq]
    exact hs'

/-- There is no cut with fewer than two vertices only. -/
theorem minCut?_eq_none_iff (g : Graph V W) : g.minCut? = none ↔ g.vertexCount < 2 := by
  have hpart := partition_singletons g.vertices.length
  have hlength := g.vertexCount_eq
  rw [minCut?, Option.map_eq_none_iff]
  constructor
  · intro hnone
    by_contra hmany
    have hsome : (cutPhases g.vertices.length g.weightTable _ none).isSome :=
      hpart.isSome_cutPhases (.inr ⟨by simp; omega, by omega⟩)
    rw [hnone] at hsome
    cases hsome
  · intro hfew
    exact cutPhases_of_length_le_one _ _ hpart (by simp; omega) none

/-- The cut is computed in place. -/
theorem minCutInPlace?_eq (g : Graph V W) : g.minCutInPlace? = some g.minCut? := by
  by_cases htwo : g.vertexCount < 2
  · rw [minCutInPlace?, if_pos htwo, g.minCut?_eq_none_iff.2 htwo]
  · have hpart := partition_singletons g.vertices.length
    obtain ⟨s, hs, h⟩ := g.exists_cutStart
    have hsteps : ((List.finRange g.vertices.length).map fun i => (⟨i, [i]⟩ : CutGroup _)).length ≤
        g.vertices.length + 1 := by simp
    obtain ⟨s', hs', hbest⟩ := h.loop hpart hsteps
    -- Indices below the number of vertices name a vertex each.
    have hside : ∀ side : List (Fin g.vertices.length),
        (side.map Fin.val).filterMap (fun i => g.vertices[i]?) = side.map g.vertices.get := by
      intro side
      rw [List.filterMap_map, ← List.filterMap_eq_map]
      exact List.filterMap_congr fun i _ => List.getElem?_eq_getElem i.isLt
    rw [minCutInPlace?, if_neg htwo, hs, vertexCount_eq]
    simp only [Option.bind_eq_bind, Option.bind_some, hs', hbest, Option.map_map]
    rw [minCut?]
    refine congrArg some (congrArg (fun f => Option.map f _) (funext fun c => ?_))
    exact congrArg (Prod.mk c.weight) (hside c.side)

/-- The phases go on from every stage. -/
theorem loop_cutStage (g : Graph V W) {k : Nat} (hk : k < g.vertexCount) :
    g.cutStart?.bind (CutVars.loop? g.vertexCount g.vertexCount) =
      (g.cutStage? k).bind (CutVars.loop? g.vertexCount (g.vertexCount - k)) := by
  induction k with
  | zero => rfl
  | succ k ih =>
    have hk' : k < g.vertexCount := by omega
    obtain ⟨s, w, groups, best, hs, h, -, hgroups⟩ := g.exists_cutStage hk'
    obtain ⟨m, hm⟩ : ∃ m, g.vertexCount - k = m + 1 := ⟨g.vertexCount - k - 1, by omega⟩
    have hm' : g.vertexCount - (k + 1) = m := by omega
    have htwo : 1 < s.active.length := by
      rw [h.length_active]
      omega
    rw [ih hk', cutStage?, hs, hm, hm', Option.bind_some, CutVars.loop?, if_pos htwo]
    rfl

/-- Whatever the weights are and however they compare, nothing is looked up or changed out of range,
and the phases come to an end.  Each of them starts with one active index less and, while two are
active, its sweep ends with two different ones.  So two vertices or more have a cut, and its side is
a part of the vertices without repetition, neither none nor all of them. -/
theorem minCut?_splits (g : Graph V W) :
    g.minCutInPlace? = some g.minCut? ∧
    (∀ k < g.vertexCount, ∃ s, g.cutStage? k = some s ∧
      g.cutStart?.bind (CutVars.loop? g.vertexCount g.vertexCount) =
        s.loop? g.vertexCount (g.vertexCount - k) ∧
      s.active.length + k = g.vertexCount ∧ (1 < s.active.length →
        ∃ p, s.sweep? g.vertexCount = some p ∧ p.prev ∈ s.active ∧ p.last ∈ s.active ∧
          p.prev ≠ p.last)) ∧
    (g.minCut? = none ↔ g.vertexCount < 2) ∧
    ∀ weight side, g.minCut? = some (weight, side) → side.Nodup ∧ side ≠ [] ∧
      (∀ v ∈ side, v ∈ g.vertices) ∧ ∃ v ∈ g.vertices, v ∉ side := by
  refine ⟨g.minCutInPlace?_eq, fun k hk => ?_, g.minCut?_eq_none_iff, fun weight side hcut => ?_⟩
  · obtain ⟨s, w, groups, best, hs, h, hpart, hgroups⟩ := g.exists_cutStage hk
    refine ⟨s, hs, by rw [g.loop_cutStage hk, hs, Option.bind_some], ?_, fun htwo => ?_⟩
    · rw [h.length_active, hgroups]
    · rw [h.length_active] at htwo
      -- With two groups left the sweep takes two at least, and ends with the heads of two groups.
      obtain ⟨x, y, prevGroup, lastGroup, hp⟩ := hpart.exists_phase htwo w
      obtain ⟨p, hsweep, hprev, hlast, -⟩ := h.sweep hpart hp
      refine ⟨p, g.vertexCount_eq ▸ hsweep, ?_, ?_, ?_⟩
      · rw [hprev, h.active]
        exact List.mem_map_of_mem hp.prev_mem
      · rw [hlast, h.active]
        exact List.mem_map_of_mem hp.last_mem
      · rw [hprev, hlast]
        exact fun e => hp.vertex_ne hpart (Fin.ext e)
  · obtain ⟨c, hc, heq⟩ := Option.map_eq_some_iff.1 hcut
    obtain ⟨-, rfl⟩ := Prod.mk.inj heq
    -- A side is the union of some groups of indices, and indices stand for different vertices.
    have hsplits := (partition_singletons _).splits_of_mem_cutPhases (by simp) hc
    have hinj : Function.Injective g.vertices.get :=
      List.nodup_iff_injective_get.1 g.forward.nodup_keys
    obtain ⟨i, hi⟩ := hsplits.proper
    refine ⟨hsplits.nodup.map hinj, fun hnil => hsplits.nonempty (List.map_eq_nil_iff.1 hnil),
      fun v hv => ?_, g.vertices.get i, List.get_mem .., fun hmem => hi ?_⟩
    · obtain ⟨i, -, rfl⟩ := List.mem_map.1 hv
      exact List.get_mem ..
    · exact (List.mem_map_of_injective hinj).1 hmem

end Graph

end PlanarSketch
