/-
Counting through the combinations of candidates.

A method over candidates is called once for every combination.  The evaluation
counts through them with an odometer.  There is one index for every list, and
the last one moves fastest: an index at the end of its list goes back to the
start, and the one before it moves.  What is still to come after given indices
has a recursive description, and one step of the odometer takes its first
vector off.  So the indices run through all vectors within the lengths of the
lists, in lexicographic order, and then the loop ends.

* `Odometer.advance`, `MultiMethod.count?`: the odometer and the evaluation that
  it drives, where look-ups may miss and turns may not suffice;
* `Odometer.vectors`, `Odometer.vectorsFrom_eq`: the vectors of indices, and
  what a step does to those that are still to come;
* `Distils`, `distils_foldl_keepNew`: what is left of values when repetitions
  are dropped, for any equality;
* `CallsEnd`, `callsEnd_gather`: how the calls of a method end;
* `MultiMethod.countFrom?_eq`, `MultiMethod.count?_spec`: the loop from given
  indices on, and the whole evaluation.
-/
import Mathlib.Data.List.Induction
import Mathlib.Data.List.Forall2
import PlanarSketch.Dataflow.Candidates

namespace PlanarSketch

variable {T : Type}

/-! ### The odometer -/

namespace Odometer

/-- Moves the first index that is not the last one for its size and takes all before it back to the
start.  Whether there is such an index is told as well. -/
def carry : List (Nat × Nat) → List Nat × Bool
  | [] => ([], false)
  | (i, size) :: rest =>
    if i + 1 < size then ((i + 1) :: rest.map Prod.fst, true)
    else (0 :: (carry rest).1, (carry rest).2)

/-- A step of the odometer, which moves the last index first. -/
def advance (sizes indices : List Nat) : List Nat × Bool :=
  let moved := carry (indices.zip sizes).reverse
  (moved.1.reverse, moved.2)

/-- One candidate of each list, unless an index is out of range. -/
def choice? (inputs : List (List T)) (indices : List Nat) : Option (List T) :=
  (inputs.zip indices).mapM fun e => e.1[e.2]?

end Odometer

namespace MultiMethod

variable [BEq T]

/-- The loop of the evaluation: the vectors of indices for which the method is called, and the
outcome.  There is no result if an index is out of range or the loop takes more turns. -/
def countFrom? (m : MultiMethod T) (inputs : List (List T)) :
    Nat → List Nat → List T → Option (List (List Nat) × Except MethodError (List T))
  | 0, _, _ => none
  | turns + 1, indices, kept => do
    let c ← Odometer.choice? inputs indices
    match m.run c with
    | .error e => some ([indices], .error e)
    | .ok values =>
      let kept := values.foldl keepNew kept
      let moved := Odometer.advance (inputs.map List.length) indices
      if moved.2 then
        (countFrom? m inputs turns moved.1 kept).map fun r => (indices :: r.1, r.2)
      else some ([indices], .ok kept)

/-- The evaluation over lists of candidates, which starts at the first candidate of each list. -/
def count? (m : MultiMethod T) (inputs : List (List T)) (turns : Nat) :
    Option (List (List Nat) × Except MethodError (List (List T))) :=
  if inputs.all fun candidates => !candidates.isEmpty then
    (m.countFrom? inputs turns (inputs.map fun _ => 0) []).map fun r =>
      (r.1, r.2.map fun values => [values])
  else some ([], .ok [[]])

end MultiMethod

namespace Odometer

/-! ### Vectors of indices -/

variable {sizes indices : List Nat}

/-- Every vector of indices below the sizes, in lexicographic order. -/
def vectors : List Nat → List (List Nat)
  | [] => [[]]
  | size :: rest => (List.range size).flatMap fun i => (vectors rest).map fun is => i :: is

/-- The vectors that are still to come, from given indices on. -/
def vectorsFrom : List Nat → List Nat → List (List Nat)
  | size :: rest, i :: is =>
    (vectorsFrom rest is).map (fun is => i :: is) ++
      (List.range' (i + 1) (size - (i + 1))).flatMap fun j =>
        (vectors rest).map fun is => j :: is
  | _, _ => [[]]

/-- The vectors are those within the sizes. -/
theorem mem_vectors_iff : indices ∈ vectors sizes ↔ List.Forall₂ (· < ·) indices sizes := by
  induction sizes generalizing indices with
  | nil => simp [vectors]
  | cons size rest ih =>
    cases indices with
    | nil => simp [vectors]
    | cons i is => simp [vectors, ih, and_comm]

/-- They are in lexicographic order, so none is repeated. -/
theorem pairwise_vectors (sizes : List Nat) : (vectors sizes).Pairwise (· < ·) := by
  induction sizes with
  | nil => exact List.pairwise_singleton _ _
  | cons size rest ih =>
    rw [vectors, List.pairwise_flatMap]
    constructor
    · intro i _
      refine List.pairwise_map.2 (ih.imp fun hlt => ?_)
      exact List.cons_lt_cons_iff.2 (.inr ⟨rfl, hlt⟩)
    · refine List.pairwise_lt_range.imp fun hij is his js hjs => ?_
      obtain ⟨is', -, rfl⟩ := List.mem_map.1 his
      obtain ⟨js', -, rfl⟩ := List.mem_map.1 hjs
      exact List.cons_lt_cons_iff.2 (.inl hij)

/-- A list without candidates leaves no vector. -/
theorem vectors_eq_nil (h : 0 ∈ sizes) : vectors sizes = [] := by
  induction sizes with
  | nil => simp at h
  | cons size rest ih =>
    rcases List.mem_cons.1 h with rfl | h
    · rfl
    · simp [vectors, ih h]

/-- From the start on, all vectors are to come. -/
theorem vectorsFrom_zero (h : ∀ size ∈ sizes, 0 < size) :
    vectorsFrom sizes (sizes.map fun _ => 0) = vectors sizes := by
  induction sizes with
  | nil => rfl
  | cons size rest ih =>
    have hsize : 0 < size := h size List.mem_cons_self
    rw [List.map_cons, vectorsFrom, ih fun s hs => h s (List.mem_cons_of_mem _ hs), vectors,
      List.range_eq_range', ← Nat.sub_add_cancel hsize, List.range'_succ, List.flatMap_cons]
    rfl

/-! ### Steps -/

/-- The index that moves last is the first one, if no other one could move. -/
theorem carry_append (wheels : List (Nat × Nat)) (i size : Nat) :
    carry (wheels ++ [(i, size)]) =
      if (carry wheels).2 then ((carry wheels).1 ++ [i], true)
      else if i + 1 < size then ((carry wheels).1 ++ [i + 1], true)
      else ((carry wheels).1 ++ [0], false) := by
  induction wheels with
  | nil =>
    simp only [List.nil_append, carry]
    split <;> rfl
  | cons wheel rest ih =>
    obtain ⟨j, size'⟩ := wheel
    by_cases hj : j + 1 < size'
    · simp [carry, hj]
    · simp only [List.cons_append, carry, hj, if_false, ih]
      split
      · rfl
      · split <;> rfl

theorem advance_cons (sizes indices : List Nat) (size i : Nat) :
    advance (size :: sizes) (i :: indices) =
      if (advance sizes indices).2 then (i :: (advance sizes indices).1, true)
      else if i + 1 < size then ((i + 1) :: (advance sizes indices).1, true)
      else (0 :: (advance sizes indices).1, false) := by
  simp only [advance, List.zip_cons_cons, List.reverse_cons, carry_append]
  by_cases hmore : (carry (indices.zip sizes).reverse).2
  · simp [hmore]
  · by_cases hi : i + 1 < size <;> simp [hmore, hi]

/-- An odometer that cannot move any further is back at the start. -/
theorem advance_eq_zero (h : indices.length = sizes.length)
    (hmore : (advance sizes indices).2 = false) :
    (advance sizes indices).1 = sizes.map fun _ => 0 := by
  induction sizes generalizing indices with
  | nil =>
    rw [List.length_nil, List.length_eq_zero_iff] at h
    subst h
    rfl
  | cons size rest ih =>
    cases indices with
    | nil => simp at h
    | cons i is =>
      have hlen : is.length = rest.length := Nat.succ.inj h
      rw [advance_cons] at hmore ⊢
      -- The last wheels move first; the first wheel moves if they cannot, and turns back at its
      -- end.
      by_cases hrest : (advance rest is).2
      · simp [hrest] at hmore
      · by_cases hi : i + 1 < size
        · simp [hrest, hi] at hmore
        · simp only [hrest, hi, if_false, List.map_cons]
          rw [ih hlen (by simpa using hrest)]
          rfl

theorem pos_of_forall₂ (h : List.Forall₂ (· < ·) indices sizes) : ∀ size ∈ sizes, 0 < size := by
  induction h with
  | nil => nofun
  | cons hi _ ih => exact List.forall_mem_cons.2 ⟨by omega, ih⟩

/-- A step takes the first of the vectors that are to come off. -/
theorem vectorsFrom_eq (h : List.Forall₂ (· < ·) indices sizes) :
    vectorsFrom sizes indices = indices ::
      if (advance sizes indices).2 then vectorsFrom sizes (advance sizes indices).1 else [] := by
  induction h with
  | nil => rfl
  | @cons i size is rest hi hrest ih =>
    rw [vectorsFrom, ih, advance_cons]
    by_cases hmore : (advance rest is).2
    · simp [hmore, vectorsFrom]
    · have hzero := advance_eq_zero hrest.length_eq (by simpa using hmore)
      have hstart := vectorsFrom_zero (pos_of_forall₂ hrest)
      by_cases hi' : i + 1 < size
      · have hsub : size - (i + 1) = size - (i + 1 + 1) + 1 := by omega
        rw [hsub, List.range'_succ, List.flatMap_cons, hzero, if_neg hmore, if_neg hmore,
          if_pos hi', if_pos rfl, vectorsFrom, hstart]
        rfl
      · have hsub : size - (i + 1) = 0 := by omega
        simp [hmore, hi', hsub]

/-- A step stays within the sizes. -/
theorem forall₂_advance (h : List.Forall₂ (· < ·) indices sizes) :
    List.Forall₂ (· < ·) (advance sizes indices).1 sizes := by
  induction h with
  | nil => exact .nil
  | @cons i size is rest hi hrest ih =>
    rw [advance_cons]
    by_cases hmore : (advance rest is).2
    · simpa [hmore] using ⟨hi, ih⟩
    · by_cases hi' : i + 1 < size
      · simpa [hmore, hi'] using ih
      · simpa [hmore, hi'] using ⟨Nat.zero_lt_of_lt hi, ih⟩

/-! ### Candidates -/

theorem choice?_cons (candidates : List T) (inputs : List (List T)) (i : Nat) :
    choice? (candidates :: inputs) (i :: indices) =
      candidates[i]?.bind fun x => (choice? inputs indices).map fun c => x :: c := by
  rw [choice?, List.zip_cons_cons, List.mapM_cons]
  cases candidates[i]? with
  | none => rfl
  | some x =>
    show (choice? inputs indices >>= fun c => some (x :: c)) = _
    cases choice? inputs indices <;> rfl

/-- The candidates at the vectors are the combinations, in the same order. -/
theorem map_choice?_vectors (inputs : List (List T)) :
    (vectors (inputs.map List.length)).map (choice? inputs) = (combinations inputs).map some := by
  induction inputs with
  | nil => rfl
  | cons candidates rest ih =>
    -- What follows depends on the candidate at the first index alone.
    have hrange : (List.range candidates.length).map (fun i => candidates[i]?) =
        candidates.map some := by
      refine List.ext_getElem? fun n => ?_
      by_cases hn : n < candidates.length <;> simp [hn]
    let next : Option T → List (Option (List T)) := fun x =>
      ((combinations rest).map some).map fun c => x.bind fun x => c.map fun c => x :: c
    have hindex : ∀ i, ((vectors (rest.map List.length)).map fun is => i :: is).map
        (choice? (candidates :: rest)) = next candidates[i]? := by
      intro i
      simp only [next, ← ih, List.map_map]
      exact List.map_congr_left fun is _ => choice?_cons candidates rest i
    have hcandidate : ∀ x, ((combinations rest).map fun c => x :: c).map some = next (some x) := by
      intro x
      simp [next]
    rw [List.map_cons, vectors, combinations, List.map_flatMap, List.map_flatMap]
    simp only [hindex, hcandidate]
    rw [← List.flatMap_map (f := some), ← hrange, List.flatMap_map]

end Odometer

/-! ### Repetitions -/

section Distils

variable [BEq T] {values kept : List T} {places : List Nat} {p : Nat} {x z : T}

/-- The values that are kept stand at the given places: those at which no value stands that some
earlier value which is kept equals. -/
structure KeptAt (values kept : List T) (places : List Nat) : Prop where
  sorted : places.Pairwise (· < ·)
  getElem?_eq : places.map (fun p => values[p]?) = kept.map some
  mem_iff : ∀ p z, values[p]? = some z →
    (p ∈ places ↔ ∀ q ∈ places, q < p → ∀ y, values[q]? = some y → (y == z) = false)

/-- What is left when every value is dropped that some earlier value which is kept equals. -/
def Distils (values kept : List T) : Prop := ∃ places, KeptAt values kept places

namespace KeptAt

theorem lt (h : KeptAt values kept places) (hp : p ∈ places) : p < values.length := by
  obtain ⟨y, -, hy⟩ := List.mem_map.1 (h.getElem?_eq ▸ List.mem_map_of_mem hp)
  exact (List.getElem?_eq_some_iff.1 hy.symm).1

theorem exists_place (h : KeptAt values kept places) (hz : z ∈ kept) :
    ∃ p ∈ places, values[p]? = some z :=
  List.mem_map.1 (h.getElem?_eq ▸ List.mem_map_of_mem hz)

theorem mem_kept (h : KeptAt values kept places) (hp : p ∈ places) (hz : values[p]? = some z) :
    z ∈ kept := by
  obtain ⟨y, hy, he⟩ := List.mem_map.1 (h.getElem?_eq ▸ List.mem_map_of_mem hp)
  rw [hz] at he
  exact Option.some_inj.1 he ▸ hy

theorem getElem?_append (h : KeptAt values kept places) (hp : p ∈ places) (x : T) :
    (values ++ [x])[p]? = values[p]? :=
  List.getElem?_append_left (h.lt hp)

/-- A further value does not matter to the places before it. -/
theorem mem_append_iff (h : KeptAt values kept places) (hp : p < values.length)
    (hz : (values ++ [x])[p]? = some z) : p ∈ places ↔
      ∀ q ∈ places, q < p → ∀ y, (values ++ [x])[q]? = some y → (y == z) = false := by
  rw [List.getElem?_append_left hp] at hz
  rw [h.mem_iff p z hz]
  exact forall₂_congr fun q hq => by rw [h.getElem?_append hq]

omit [BEq T] in
theorem eq_of_getElem?_append (hp : ¬p < values.length) (hz : (values ++ [x])[p]? = some z) :
    p = values.length ∧ x = z := by
  have hlt : p < (values ++ [x]).length := (List.getElem?_eq_some_iff.1 hz).1
  obtain rfl : p = values.length := by
    rw [List.length_append, List.length_singleton] at hlt
    omega
  exact ⟨rfl, by simpa using hz⟩

/-- A value that some kept one equals is dropped. -/
theorem drop (h : KeptAt values kept places) (hx : ∃ y ∈ kept, (y == x) = true) :
    KeptAt (values ++ [x]) kept places where
  sorted := h.sorted
  getElem?_eq :=
    (List.map_congr_left fun _ hp => h.getElem?_append hp x).trans h.getElem?_eq
  mem_iff := by
    intro p z hz
    by_cases hp : p < values.length
    · exact h.mem_append_iff hp hz
    · obtain ⟨rfl, rfl⟩ := eq_of_getElem?_append hp hz
      obtain ⟨y, hy, hyx⟩ := hx
      obtain ⟨q, hq, hqy⟩ := h.exists_place hy
      refine ⟨fun hmem => absurd (h.lt hmem) hp, fun hall => ?_⟩
      have hno := hall q hq (h.lt hq) y ((h.getElem?_append hq x).trans hqy)
      rw [hyx] at hno
      cases hno

/-- A value that no kept one equals is kept. -/
theorem keep (h : KeptAt values kept places) (hx : ∀ y ∈ kept, (y == x) = false) :
    KeptAt (values ++ [x]) (kept ++ [x]) (places ++ [values.length]) where
  sorted := List.pairwise_append.2 ⟨h.sorted, List.pairwise_singleton _ _, fun p hp q hq =>
    List.mem_singleton.1 hq ▸ h.lt hp⟩
  getElem?_eq := by
    rw [List.map_append, List.map_append, ← h.getElem?_eq]
    congr 1
    · exact List.map_congr_left fun _ hp => h.getElem?_append hp x
    · simp
  mem_iff := by
    intro p z hz
    by_cases hp : p < values.length
    · -- The new place comes later and so makes no difference.
      have hplaces : p ∈ places ++ [values.length] ↔ p ∈ places := by
        simp [Nat.ne_of_lt hp]
      rw [hplaces, h.mem_append_iff hp hz]
      constructor
      · intro hall q hq hqp
        rcases List.mem_append.1 hq with hq | hq
        · exact hall q hq hqp
        · exact absurd hqp (by rw [List.mem_singleton.1 hq]; omega)
      · exact fun hall q hq => hall q (List.mem_append_left _ hq)
    · obtain ⟨rfl, rfl⟩ := eq_of_getElem?_append hp hz
      refine iff_of_true (by simp) fun q hq hqp y hy => hx y ?_
      have hq' : q ∈ places := (List.mem_append.1 hq).resolve_right fun he =>
        Nat.lt_irrefl _ (List.mem_singleton.1 he ▸ hqp)
      exact h.mem_kept hq' ((h.getElem?_append hq' x).symm.trans hy)

end KeptAt

/-- Keeping one value after the other leaves what it should. -/
theorem distils_foldl_keepNew (values : List T) : Distils values (values.foldl keepNew []) := by
  induction values using List.reverseRecOn with
  | nil => exact ⟨[], .nil, rfl, by simp⟩
  | append_singleton values x ih =>
    obtain ⟨places, h⟩ := ih
    rw [List.foldl_append, List.foldl_cons, List.foldl_nil, keepNew]
    split
    · rename_i hany
      exact ⟨places, h.drop (List.any_eq_true.1 hany)⟩
    · rename_i hany
      refine ⟨_, h.keep fun y hy => ?_⟩
      exact Bool.eq_false_iff.2 fun he => hany (List.any_eq_true.2 ⟨y, hy, he⟩)

end Distils

/-! ### Calls -/

section Calls

variable [BEq T] {rule : List T → Except MethodError (List T)} {combos : List (List T)}

/-- How the calls end: with the values of all, or with the error of the first call that fails. -/
inductive CallsEnd (rule : List T → Except MethodError (List T)) (combos : List (List T)) :
    List (List T) → Except MethodError (List T) → Prop
  | done {results : List (List T)} {kept : List T} (hall : combos.mapM rule = .ok results)
      (hkept : Distils results.flatten kept) : CallsEnd rule combos combos (.ok kept)
  | failed {before after : List (List T)} {c : List T} {e : MethodError}
      (hcombos : combos = before ++ c :: after)
      (hbefore : ∀ b ∈ before, ∃ values, rule b = .ok values)
      (hc : rule c = .error e) : CallsEnd rule combos (before ++ [c]) (.error e)

/-- If no call fails, the values of all are kept one after the other. -/
theorem gather_of_mapM (kept : List T) {results : List (List T)}
    (hall : combos.mapM rule = .ok results) :
    gather rule kept combos = .ok (results.flatten.foldl keepNew kept) ∧
      attempted rule combos = combos := by
  induction combos generalizing kept results with
  | nil =>
    obtain rfl := Except.ok.inj hall
    exact ⟨rfl, rfl⟩
  | cons c rest ih =>
    rw [List.mapM_cons] at hall
    cases hc : rule c with
    | error e =>
      rw [hc] at hall
      cases hall
    | ok values =>
      rw [hc] at hall
      cases hrest : rest.mapM rule with
      | error e =>
        rw [hrest] at hall
        cases hall
      | ok others =>
        rw [hrest] at hall
        obtain rfl := Except.ok.inj hall
        obtain ⟨hgather, htried⟩ := ih (values.foldl keepNew kept) hrest
        rw [gather, attempted, hc]
        exact ⟨by rw [List.flatten_cons, List.foldl_append]; exact hgather, by rw [htried]⟩

/-- A call that fails is the last one. -/
theorem gather_of_error (kept : List T) {before : List (List T)} (after : List (List T))
    {c : List T} {e : MethodError} (hbefore : ∀ b ∈ before, ∃ values, rule b = .ok values)
    (hc : rule c = .error e) :
    gather rule kept (before ++ c :: after) = .error e ∧
      attempted rule (before ++ c :: after) = before ++ [c] := by
  induction before generalizing kept with
  | nil => simp [gather, attempted, hc]
  | cons b rest ih =>
    obtain ⟨⟨values, hvalues⟩, hrest⟩ := List.forall_mem_cons.1 hbefore
    obtain ⟨hgather, htried⟩ := ih (values.foldl keepNew kept) hrest
    rw [List.cons_append, gather, attempted, hvalues]
    exact ⟨hgather, by rw [htried]; rfl⟩

omit [BEq T] in
/-- Either no call fails, or there is a first one that does. -/
theorem mapM_cases (rule : List T → Except MethodError (List T)) (combos : List (List T)) :
    (∃ results, combos.mapM rule = .ok results) ∨
      ∃ before c after e, combos = before ++ c :: after ∧
        (∀ b ∈ before, ∃ values, rule b = .ok values) ∧ rule c = .error e := by
  induction combos with
  | nil => exact .inl ⟨[], rfl⟩
  | cons c rest ih =>
    cases hc : rule c with
    | error e => exact .inr ⟨[], c, rest, e, rfl, nofun, hc⟩
    | ok values =>
      rcases ih with ⟨results, hresults⟩ | ⟨before, c', after, e, rfl, hbefore, he⟩
      · refine .inl ⟨values :: results, ?_⟩
        rw [List.mapM_cons, hc, hresults]
        rfl
      · exact .inr ⟨c :: before, c', after, e, rfl,
          List.forall_mem_cons.2 ⟨⟨values, hc⟩, hbefore⟩, he⟩

theorem callsEnd_gather (rule : List T → Except MethodError (List T)) (combos : List (List T)) :
    CallsEnd rule combos (attempted rule combos) (gather rule [] combos) := by
  rcases mapM_cases rule combos with ⟨results, hall⟩ | ⟨before, c, after, e, rfl, hbefore, hc⟩
  · obtain ⟨hgather, htried⟩ := gather_of_mapM [] hall
    rw [hgather, htried]
    exact .done hall (distils_foldl_keepNew _)
  · obtain ⟨hgather, htried⟩ := gather_of_error [] after hbefore hc
    rw [hgather, htried]
    exact .failed rfl hbefore hc

end Calls

/-! ### The evaluation -/

namespace MultiMethod

open Odometer

variable [BEq T] {m : MultiMethod T} {inputs combos : List (List T)} {indices : List Nat}
  {kept : List T}

/-- The loop calls the method for what is still to come, up to the first failure, and takes one
turn for each call. -/
theorem countFrom?_eq (turns : Nat)
    (hin : List.Forall₂ (· < ·) indices (inputs.map List.length))
    (hcombos : (vectorsFrom (inputs.map List.length) indices).map (choice? inputs) =
      combos.map some) :
    m.countFrom? inputs turns indices kept =
      if (attempted m.run combos).length ≤ turns then
        some ((vectorsFrom (inputs.map List.length) indices).take (attempted m.run combos).length,
          gather m.run kept combos)
      else none := by
  induction turns generalizing indices kept combos with
  | zero =>
    -- Without a turn left there is still one combination to try.
    rw [vectorsFrom_eq hin, List.map_cons] at hcombos
    obtain ⟨c, rest, rfl, -, -⟩ := List.map_eq_cons_iff.1 hcombos.symm
    rw [countFrom?, if_neg]
    rw [attempted]
    split <;> simp
  | succ turns ih =>
    rw [vectorsFrom_eq hin, List.map_cons] at hcombos
    obtain ⟨c, rest, rfl, hc, hrest⟩ := List.map_eq_cons_iff.1 hcombos.symm
    rw [countFrom?, ← hc, vectorsFrom_eq hin, attempted, gather]
    show (match m.run c with | .error e => _ | .ok values => _) = _
    cases hrun : m.run c with
    | error e => simp
    | ok values =>
      dsimp only
      by_cases hmore : (advance (inputs.map List.length) indices).2 = true
      · rw [if_pos hmore] at hrest ⊢
        rw [if_pos hmore, ih (forall₂_advance hin) hrest.symm]
        by_cases hturns : (attempted m.run rest).length ≤ turns
        · simp [hturns]
        · simp [hturns]
      · -- The odometer is back at the start, so this was the last one.
        rw [if_neg hmore] at hrest ⊢
        obtain rfl : rest = [] := List.map_eq_nil_iff.1 hrest
        rw [if_neg hmore]
        simp [attempted, gather]

omit [BEq T] in
theorem combinations_eq_nil (h : [] ∈ inputs) : combinations inputs = [] := by
  have hnone := map_choice?_vectors inputs
  rw [vectors_eq_nil (List.mem_map.2 ⟨[], h, rfl⟩)] at hnone
  exact List.map_eq_nil_iff.1 hnone.symm

/-- A list without candidates leaves nothing to call the method for. -/
theorem trials_eq_nil (m : MultiMethod T) (h : [] ∈ inputs) :
    m.trials inputs = [] ∧ m.lift.run inputs = .ok [[]] := by
  constructor
  · rw [trials, combinations_eq_nil h]
    rfl
  · show (gather m.run [] (combinations inputs)).map _ = _
    rw [combinations_eq_nil h]
    rfl

/-- The evaluation in place takes one turn for each combination that is tried, and has the same
outcome as the evaluation over the list of all combinations. -/
theorem count?_eq (m : MultiMethod T) (inputs : List (List T)) (turns : Nat) :
    m.count? inputs turns =
      if (m.trials inputs).length ≤ turns then
        some ((vectors (inputs.map List.length)).take (m.trials inputs).length, m.lift.run inputs)
      else none := by
  rw [count?]
  split
  · rename_i hall
    -- No input is empty, so the odometer starts at zero and runs through all vectors.
    have hpos : ∀ size ∈ inputs.map List.length, 0 < size := by
      simpa [List.length_pos_iff] using hall
    have hstart := vectorsFrom_zero hpos
    have hin : List.Forall₂ (· < ·) ((inputs.map List.length).map fun _ => 0)
        (inputs.map List.length) := by
      simpa [List.forall₂_map_left_iff, List.forall₂_same] using hpos
    have hcombos := map_choice?_vectors inputs
    rw [← hstart] at hcombos ⊢
    rw [List.map_map] at hin hcombos ⊢
    rw [show (inputs.map fun _ => 0) = inputs.map ((fun _ => 0) ∘ List.length) from rfl,
      countFrom?_eq turns hin hcombos, apply_ite (Option.map _)]
    rfl
  · rename_i hall
    -- An empty input leaves no combination.
    have hempty : [] ∈ inputs := by simpa using hall
    obtain ⟨htrials, hrun⟩ := m.trials_eq_nil hempty
    simp [htrials, hrun]

/-- The odometer visits every vector of indices within the lengths of the lists once, in
lexicographic order, and with it every combination.  The evaluation takes one turn for each call of
the method and ends.  Either it calls the method for all combinations and its only output is what
all values distil to, or it ends with the error of the first call that fails.  A list without
candidates allows no call, and no list at all just one. -/
theorem count?_spec (m : MultiMethod T) (inputs : List (List T)) :
    (vectors (inputs.map List.length)).Pairwise (· < ·) ∧
      (∀ indices, indices ∈ vectors (inputs.map List.length) ↔
        List.Forall₂ (fun i candidates => i < candidates.length) indices inputs) ∧
      (vectors (inputs.map List.length)).map (choice? inputs) = (combinations inputs).map some ∧
      (∀ turns, m.count? inputs turns =
        if (m.trials inputs).length ≤ turns then
          some ((vectors (inputs.map List.length)).take (m.trials inputs).length,
            m.lift.run inputs)
        else none) ∧
      (∃ outcome, CallsEnd m.run (combinations inputs) (m.trials inputs) outcome ∧
        m.lift.run inputs = outcome.map fun values => [values]) ∧
      ([] ∈ inputs → m.trials inputs = [] ∧ m.lift.run inputs = .ok [[]]) ∧
      (inputs = [] → m.trials inputs = [[]]) := by
  refine ⟨pairwise_vectors _, fun indices => ?_, map_choice?_vectors inputs, m.count?_eq inputs,
    ⟨_, callsEnd_gather m.run (combinations inputs), rfl⟩, m.trials_eq_nil, ?_⟩
  · rw [mem_vectors_iff, List.forall₂_map_right_iff]
  · rintro rfl
    rw [trials, combinations, attempted]
    split <;> rfl

example : MultiMethod.count? ⟨"plus_minus", fun c => .ok [c.sum, -c.sum]⟩
    [[1, 2], [0, (1 : Int)]] 4 =
      some ([[0, 0], [0, 1], [1, 0], [1, 1]], .ok [[1, -1, 2, -2, 3, -3]]) := by rfl

end MultiMethod

end PlanarSketch
