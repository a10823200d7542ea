/-
The search for a path finds a shortest one.

The walks in the queue of a breadth-first search never get shorter towards the
end of the queue, and the last is longer than the first by one edge at most.
Every one of them is a shortest walk to its end: a shorter one would leave the
vertices that are done at a vertex of the queue, and the walk to that vertex
stands further in front.

The search can also be carried out with a table that tells of every vertex
from where it was reached first.  The way back through the table ends at the
start and is the walk of the queue, so the paths are the same.

* `IsWalk`: a walk as the list of its vertices;
* `Advances`: what holds of the queue, kept by every step
  (`Advances.lengthen`);
* `Linked.isShortest_path?`: the path is a shortest walk;
* `traceBack`, `Graph.pathByTable?`: the search with a table;
* `Tabled.findBack?_eq`: it finds the same path;
* `path_run`: what the search finds, after every run.
-/
import Mathlib.Data.List.Chain
import PlanarSketch.Proofs.Edges

namespace PlanarSketch

variable {V E : Type} {R : V → V → Prop} {a b c v w : V} {p : List V}

/-! ### Walks -/

/-- The list starts with `a`, follows the relation and ends with `b`. -/
structure IsWalk (R : V → V → Prop) (a b : V) (p : List V) : Prop where
  starts : p.head? = some a
  ends : p.getLast? = some b
  follows : p.IsChain R

theorem isWalk_single (R : V → V → Prop) (a : V) : IsWalk R a a [a] := ⟨rfl, rfl, .singleton a⟩

theorem IsWalk.concat (h : IsWalk R a b p) (hbc : R b c) : IsWalk R a c (p ++ [c]) where
  starts := by rw [List.head?_append, h.starts, Option.some_or]
  ends := List.getLast?_concat
  follows := h.follows.append (.singleton c) fun x hx y hy => by
    rw [h.ends, Option.mem_some_iff] at hx
    rw [List.head?_cons, Option.mem_some_iff] at hy
    rwa [← hx, ← hy]

/-- A walk has no edge, or it ends with one. -/
theorem IsWalk.cases_concat (h : IsWalk R a c p) :
    p = [a] ∧ c = a ∨ ∃ q b, p = q ++ [c] ∧ IsWalk R a b q ∧ R b c := by
  rcases List.eq_nil_or_concat p with rfl | ⟨q, d, hq⟩
  · cases h.ends
  · rw [List.concat_eq_append] at hq
    subst hq
    obtain rfl : d = c := Option.some_inj.1 (List.getLast?_concat.symm.trans h.ends)
    -- Without its last vertex the walk is empty or ends one edge earlier.
    cases hlast : q.getLast? with
    | none =>
      rw [List.getLast?_eq_none_iff] at hlast
      subst hlast
      exact .inl ⟨congrArg (· :: []) (Option.some_inj.1 h.starts), Option.some_inj.1 h.starts⟩
    | some b =>
      obtain ⟨hchain, -, hlink⟩ := List.isChain_append.1 h.follows
      have hne : q ≠ [] := by
        rintro rfl
        cases hlast
      have hstarts : q.head? = some a := by
        rw [← h.starts, List.head?_append_of_ne_nil _ hne]
      exact .inr ⟨q, b, rfl, ⟨hstarts, hlast, hchain⟩, hlink b hlast d rfl⟩

/-! ### The queue -/

section Queue

variable {next : V → List V} {done back : List V} {walks rest : List (V × List V)}

/-- Every walk of the queue is a shortest one from the start to its end; they stand by their length,
and no two differ by more than one edge.  The successors of what is done have been seen. -/
structure Advances (next : V → List V) (a : V) (done : List V) (walks : List (V × List V)) :
    Prop where
  walk : ∀ e ∈ walks, IsWalk (fun x y => y ∈ next x) a e.1 (e.1 :: e.2).reverse
  least : ∀ e ∈ walks, ∀ p, IsWalk (fun x y => y ∈ next x) a e.1 p → e.2.length < p.length
  sorted : walks.Pairwise fun e e' => e.2.length ≤ e'.2.length
  near : ∀ e ∈ walks, ∀ e' ∈ walks, e'.2.length ≤ e.2.length + 1
  start : a ∈ done ++ walks.map Prod.fst
  closed : ∀ v ∈ done, ∀ w ∈ next v, w ∈ done ++ walks.map Prod.fst

theorem advances_start (next : V → List V) (a : V) : Advances next a [] [(a, [])] where
  walk := fun e he => by
    rw [List.mem_singleton.1 he]
    exact isWalk_single _ a
  least := fun e he p hp => by
    rw [List.mem_singleton.1 he]
    refine List.length_pos_iff.2 ?_
    rintro rfl
    cases hp.starts
  sorted := List.pairwise_singleton ..
  near := fun e he e' he' => by
    rw [List.mem_singleton.1 he, List.mem_singleton.1 he']
    exact Nat.zero_le _
  start := List.mem_cons_self
  closed := nofun

/-- A walk to a vertex that is not done passes the end of a walk in the queue that is no longer, and
strictly shorter unless it ends there. -/
theorem Advances.exists_le (h : Advances next a done walks)
    (hp : IsWalk (fun x y => y ∈ next x) a v p) (hv : v ∉ done) :
    ∃ e ∈ walks, e.2.length < p.length ∧ (e.1 ≠ v → e.2.length + 1 < p.length) := by
  -- The end of a walk of the queue stops the induction.
  have hqueued : ∀ {u : V} {p : List V}, IsWalk (fun x y => y ∈ next x) a u p → u ∉ done →
      u ∈ done ++ walks.map Prod.fst →
      ∃ e ∈ walks, e.2.length < p.length ∧ (e.1 ≠ u → e.2.length + 1 < p.length) := by
    intro u p hp hu hmem
    obtain ⟨e, he, rfl⟩ := List.mem_map.1 ((List.mem_append.1 hmem).resolve_left hu)
    exact ⟨e, he, h.least e he p hp, fun hne => absurd rfl hne⟩
  induction hn : p.length generalizing p v with
  | zero =>
    rw [List.length_eq_zero_iff.1 hn] at hp
    cases hp.starts
  | succ n ih =>
    rw [← hn]
    rcases hp.cases_concat with ⟨-, rfl⟩ | ⟨q, u, rfl, hq, huv⟩
    · exact hqueued hp hv h.start
    · by_cases hu : u ∈ done
      · exact hqueued hp hv (h.closed u hu v huv)
      · rw [List.length_append, List.length_singleton] at hn
        obtain ⟨e, he, hlt, -⟩ := ih hq hu (by omega)
        refine ⟨e, he, ?_, fun _ => ?_⟩ <;> rw [List.length_append, List.length_singleton] <;> omega

variable [DecidableEq V]

/-- A step of the search. -/
theorem Advances.lengthen (h : Advances next a done ((v, back) :: rest)) :
    Advances next a (done ++ [v]) (lengthen next done v back rest) := by
  have hfirst := h.walk (v, back) List.mem_cons_self
  have hfront : ∀ e ∈ (v, back) :: rest, back.length ≤ e.2.length := by
    intro e he
    rcases List.mem_cons.1 he with rfl | he
    · exact Nat.le_refl _
    · exact List.rel_of_pairwise_cons h.sorted he
  have hbound : ∀ e ∈ PlanarSketch.lengthen next done v back rest,
      back.length ≤ e.2.length ∧ e.2.length ≤ back.length + 1 := by
    intro e he
    rcases mem_lengthen.1 he with he | ⟨hback, -⟩
    · have hmem := List.mem_cons_of_mem (v, back) he
      exact ⟨hfront e hmem, h.near (v, back) List.mem_cons_self e hmem⟩
    · rw [hback, List.length_cons]
      exact ⟨Nat.le_succ _, Nat.le_refl _⟩
  refine ⟨fun e he => ?_, fun e he p hp => ?_, ?_, fun e he e' he' => ?_, ?_, fun u hu w hw => ?_⟩
  · rcases mem_lengthen.1 he with he | ⟨hback, hstep, -⟩
    · exact h.walk e (List.mem_cons_of_mem _ he)
    · rw [hback, List.reverse_cons]
      exact hfirst.concat hstep
  · rcases mem_lengthen.1 he with he | ⟨hback, -, hnew⟩
    · exact h.least e (List.mem_cons_of_mem _ he) p hp
    · -- The end is new, so the walk passes a vertex of the queue before.
      rw [List.mem_append, not_or] at hnew
      obtain ⟨e', he', -, hlt⟩ := h.exists_le hp hnew.1
      have hne : e'.1 ≠ e.1 := fun heq => hnew.2 (heq ▸ List.mem_map_of_mem he')
      have hle := hfront e' he'
      have hlt := hlt hne
      rw [hback, List.length_cons]
      omega
  · refine List.pairwise_append.2 ⟨(List.pairwise_cons.1 h.sorted).2, ?_, fun e he e' he' => ?_⟩
    · refine List.pairwise_map.2 (List.pairwise_of_forall fun _ _ => Nat.le_refl _)
    · obtain ⟨w, -, rfl⟩ := List.mem_map.1 he'
      exact (hbound e (List.mem_append_left _ he)).2
  · have hle := (hbound e he).1
    have hle' := (hbound e' he').2
    omega
  · exact mem_ends_lengthen.2 (.inl h.start)
  · refine mem_ends_lengthen.2 ?_
    rcases List.mem_append.1 hu with hu | hu
    · exact .inl (h.closed u hu w hw)
    · exact .inr (List.mem_singleton.1 hu ▸ hw)

/-- What the search finds is a shortest walk. -/
theorem Advances.isShortest {n : Nat} {target : V} (h : Advances next a done walks)
    (htarget : target ∉ done)
    (hp : walk? next target n (done ++ walks.map Prod.fst) (walks.map fun q => q.1 :: q.2) =
      some p) :
    IsWalk (fun x y => y ∈ next x) a target p ∧
      ∀ q, IsWalk (fun x y => y ∈ next x) a target q → p.length ≤ q.length := by
  induction n generalizing done walks with
  | zero => cases hp
  | succ n ih =>
    match walks with
    | [] => cases hp
    | (v, back) :: rest =>
      by_cases hv : v = target
      · subst hv
        simp only [List.map_cons] at hp
        rw [walk?, if_pos rfl, Option.some_inj] at hp
        subst hp
        refine ⟨h.walk (v, back) List.mem_cons_self, fun q hq => ?_⟩
        rw [List.length_reverse]
        exact h.least (v, back) List.mem_cons_self q hq
      · simp only [List.map_cons] at hp
        rw [walk?_lengthen hv] at hp
        refine ih h.lengthen (fun hmem => ?_) hp
        rcases List.mem_append.1 hmem with hmem | hmem
        · exact htarget hmem
        · exact hv (List.mem_singleton.1 hmem).symm

end Queue

/-! ### A table of where vertices were reached from -/

section Table

variable [DecidableEq V] {next : V → List V} {done back queue l : List V}
  {walks rest : List (V × List V)} {from? : OrderedMap V (Option V)} {target : V} {n : Nat}

/-- The vertices from `v` back to one that was reached from nowhere. -/
def traceBack (from? : OrderedMap V (Option V)) : Nat → V → Option (List V)
  | 0, _ => none
  | steps + 1, v =>
    match from?.find? v with
    | some (some u) => (traceBack from? steps u).map fun back => v :: back
    | _ => some [v]

/-- Queues a successor of `v` and records that it was reached from there, unless it is known. -/
def reach (v : V) (state : OrderedMap V (Option V) × List V) (w : V) :
    OrderedMap V (Option V) × List V :=
  if state.1.contains w then state else (state.1.insert w (some v), state.2 ++ [w])

/-- Searches breadth-first for the target and traces it back. -/
def findBack? (next : V → List V) (target : V) :
    Nat → OrderedMap V (Option V) → List V → Option (List V)
  | 0, _, _ => none
  | _ + 1, _, [] => none
  | steps + 1, from?, v :: queue =>
    if v = target then (traceBack from? from?.size v).map List.reverse
    else
      let state := (next v).foldl (reach v) (from?, queue)
      findBack? next target steps state.1 state.2

/-- The search for a path with a table instead of whole walks. -/
def Graph.pathByTable? (g : Graph V E) (a b : V) : Option (List V) :=
  if g.hasVertex a && g.hasVertex b then
    findBack? g.outgoing b g.vertexCount (OrderedMap.empty.insert a none) [a]
  else none

/-- The successors that are new are queued and known from now on. -/
theorem foldl_reach (v : V) (from? : OrderedMap V (Option V)) (queue : List V) (hl : l.Nodup) :
    (l.foldl (reach v) (from?, queue)).2 = queue ++ l.filter (· ∉ from?.keys) ∧
      (l.foldl (reach v) (from?, queue)).1.keys = from?.keys ++ l.filter (· ∉ from?.keys) ∧
      ∀ u, (l.foldl (reach v) (from?, queue)).1.find? u =
        if u ∈ l ∧ u ∉ from?.keys then some (some v) else from?.find? u := by
  induction l generalizing from? queue with
  | nil => simp
  | cons w l ih =>
    obtain ⟨hw, hl⟩ := List.nodup_cons.1 hl
    rw [List.foldl_cons]
    by_cases hknown : w ∈ from?.keys
    · have hstay : reach v (from?, queue) w = (from?, queue) := by
        rw [reach, if_pos (OrderedMap.contains_iff .. |>.2 hknown)]
      obtain ⟨hqueue, hkeys, hfind⟩ := ih from? queue hl
      rw [hstay, hqueue, hkeys]
      refine ⟨by simp [hknown], by simp [hknown], fun u => ?_⟩
      rw [hfind]
      by_cases hu : u = w
      · simp [hu, hknown]
      · simp [hu]
    · have hgo : reach v (from?, queue) w = (from?.insert w (some v), queue ++ [w]) := by
        rw [reach, if_neg (mt (OrderedMap.contains_iff ..).1 hknown)]
      obtain ⟨hqueue, hkeys, hfind⟩ := ih (from?.insert w (some v)) (queue ++ [w]) hl
      have hkeys' : (from?.insert w (some v)).keys = from?.keys ++ [w] := by
        rw [OrderedMap.keys_insert, if_neg hknown]
      -- The vertex does not come again, so that it is known now changes nothing.
      have hrest : l.filter (· ∉ from?.keys ++ [w]) = l.filter (· ∉ from?.keys) := by
        refine List.filter_congr fun u hu => ?_
        have hne : u ≠ w := fun e => hw (e ▸ hu)
        simp [hne]
      rw [hkeys', hrest] at hqueue hkeys
      rw [hgo, hqueue, hkeys]
      refine ⟨by simp [hknown], by simp [hknown], fun u => ?_⟩
      rw [hfind, hkeys', OrderedMap.find?_insert]
      by_cases hu : u = w
      · subst hu
        simp [hw, hknown]
      · simp [hu, Ne.symm hu]

/-- The table leads along the list to its end and from there nowhere. -/
def LeadsAlong (from? : OrderedMap V (Option V)) : List V → Prop
  | [] => False
  | [v] => from?.find? v = some none
  | v :: u :: back => from?.find? v = some (some u) ∧ LeadsAlong from? (u :: back)

theorem traceBack_eq (h : LeadsAlong from? (v :: back)) (hn : back.length < n) :
    traceBack from? n v = some (v :: back) := by
  induction back generalizing v n with
  | nil =>
    obtain ⟨n, rfl⟩ := Nat.exists_eq_succ_of_ne_zero (Nat.ne_of_gt hn)
    have hv : from?.find? v = some none := h
    rw [traceBack, hv]
  | cons u back ih =>
    obtain ⟨n, rfl⟩ := Nat.exists_eq_succ_of_ne_zero (Nat.ne_of_gt (Nat.zero_lt_of_lt hn))
    obtain ⟨hv, hback⟩ := h
    rw [traceBack, hv]
    simp only [ih hback (Nat.lt_of_succ_lt_succ hn), Option.map_some]

theorem LeadsAlong.mem_keys (h : LeadsAlong from? l) (hv : v ∈ l) : v ∈ from?.keys := by
  have hsome : ∀ {u : V} {x : Option V}, from?.find? u = some x → u ∈ from?.keys := by
    intro u x hx
    rw [← OrderedMap.contains_iff, ← OrderedMap.isSome_find?, hx, Option.isSome_some]
  induction l with
  | nil => cases hv
  | cons u l ih =>
    cases l with
    | nil =>
      rw [List.mem_singleton.1 hv]
      exact hsome h
    | cons w l =>
      rcases List.mem_cons.1 hv with rfl | hv
      · exact hsome h.1
      · exact ih h.2 hv

theorem LeadsAlong.congr {from?' : OrderedMap V (Option V)} (h : LeadsAlong from? l)
    (hsame : ∀ v ∈ l, from?'.find? v = from?.find? v) : LeadsAlong from?' l := by
  induction l with
  | nil => exact h
  | cons u l ih =>
    cases l with
    | nil => exact (hsame u List.mem_cons_self).trans h
    | cons w l =>
      exact ⟨(hsame u List.mem_cons_self).trans h.1,
        ih h.2 fun v hv => hsame v (List.mem_cons_of_mem u hv)⟩

/-- The table knows what has been seen and leads from the end of every walk in the queue back along
the walk, which passes no vertex twice. -/
structure Tabled (from? : OrderedMap V (Option V)) (done : List V) (walks : List (V × List V)) :
    Prop where
  keys : from?.keys = done ++ walks.map Prod.fst
  leads : ∀ e ∈ walks, LeadsAlong from? (e.1 :: e.2)
  nodup : ∀ e ∈ walks, (e.1 :: e.2).Nodup

/-- A step of the search. -/
theorem Tabled.lengthen (h : Tabled from? done ((v, back) :: rest)) (hnext : (next v).Nodup) :
    Tabled ((next v).foldl (reach v) (from?, rest.map Prod.fst)).1 (done ++ [v])
      (lengthen next done v back rest) := by
  obtain ⟨-, hkeys, hfind⟩ := foldl_reach v from? (rest.map Prod.fst) hnext
  have hold : from?.keys = done ++ v :: rest.map Prod.fst := h.keys
  -- Entries are made for new vertices only, so old ways back stay.
  have hstays : ∀ l, LeadsAlong from? l →
      LeadsAlong ((next v).foldl (reach v) (from?, rest.map Prod.fst)).1 l := by
    intro l hl
    refine hl.congr fun u hu => ?_
    rw [hfind, if_neg fun hno => hno.2 (hl.mem_keys hu)]
  have hfirst := h.leads (v, back) List.mem_cons_self
  refine ⟨?_, fun e he => ?_, fun e he => ?_⟩
  · rw [hkeys, ends_lengthen, hold]
  · rcases mem_lengthen.1 he with he | ⟨hback, hstep, hnew⟩
    · exact hstays _ (h.leads e (List.mem_cons_of_mem _ he))
    · rw [hback]
      refine ⟨?_, hstays _ hfirst⟩
      -- A vertex that was not known leads back to the one that is explored.
      rw [hfind, if_pos ⟨hstep, hold ▸ hnew⟩]
  · rcases mem_lengthen.1 he with he | ⟨hback, -, hnew⟩
    · exact h.nodup e (List.mem_cons_of_mem _ he)
    · rw [hback]
      -- What the way back passes was known, and the new vertex was not.
      refine List.nodup_cons.2 ⟨fun hmem => hnew ?_, h.nodup (v, back) List.mem_cons_self⟩
      rw [← hold]
      exact hfirst.mem_keys hmem

/-- The table serves as well as the walks. -/
theorem Tabled.findBack?_eq (h : Tabled from? done walks) (hnext : ∀ v, (next v).Nodup) (n : Nat) :
    findBack? next target n from? (walks.map Prod.fst) =
      walk? next target n (done ++ walks.map Prod.fst) (walks.map fun q => q.1 :: q.2) := by
  induction n generalizing from? done walks with
  | zero => rfl
  | succ n ih =>
    match walks with
    | [] => rfl
    | (v, back) :: rest =>
      simp only [List.map_cons]
      rw [findBack?]
      split
      · rename_i hv
        -- The way back has no vertex twice, so it is no longer than the table.
        have hleads := h.leads (v, back) List.mem_cons_self
        have hsub : ∀ u ∈ v :: back, u ∈ from?.keys := fun u hu => hleads.mem_keys hu
        have hlength :=
          (List.subperm_of_subset (h.nodup (v, back) List.mem_cons_self) hsub).length_le
        rw [List.length_cons, OrderedMap.length_keys] at hlength
        rw [traceBack_eq hleads hlength, walk?, if_pos hv, Option.map_some]
      · rename_i hv
        obtain ⟨hqueue, -, -⟩ := foldl_reach v from? (rest.map Prod.fst) (hnext v)
        have hends : rest.map Prod.fst ++ (next v).filter (· ∉ from?.keys) =
            (PlanarSketch.lengthen next done v back rest).map Prod.fst := by
          have hold : from?.keys = done ++ v :: rest.map Prod.fst := h.keys
          rw [hold]
          simp [PlanarSketch.lengthen, Function.comp_def]
        dsimp only
        rw [walk?_lengthen hv, hqueue, hends, ih (h.lengthen (hnext v))]

end Table

/-! ### Paths of a graph -/

namespace Graph

variable [DecidableEq V] {g : Graph V E}

theorem pathByTable?_eq (g : Graph V E) (a b : V) : g.pathByTable? a b = g.path? a b := by
  have hstart : Tabled ((OrderedMap.empty : OrderedMap V (Option V)).insert a none) []
      [(a, [])] := by
    refine ⟨rfl, fun e he => ?_, fun e he => ?_⟩
    · rw [List.mem_singleton.1 he]
      exact OrderedMap.find?_insert_self ..
    · rw [List.mem_singleton.1 he]
      exact List.nodup_singleton a
  unfold pathByTable? path?
  rw [← List.nil_append [a]]
  exact ite_congr rfl (fun _ => hstart.findBack?_eq g.nodup_outgoing _) fun _ => rfl

/-- A path that is found is a walk along edges with the fewest vertices. -/
theorem isShortest_path? (hp : g.path? a b = some p) :
    IsWalk (fun x y => g.hasEdge x y = true) a b p ∧
      ∀ q, IsWalk (fun x y => g.hasEdge x y = true) a b q → p.length ≤ q.length := by
  have hedge : (fun x y => g.hasEdge x y = true) = fun x y => y ∈ g.outgoing x := by
    funext x y
    exact propext mem_outgoing.symm
  unfold path? at hp
  split at hp
  · rw [hedge]
    exact (advances_start g.outgoing a).isShortest List.not_mem_nil hp
  · cases hp

/-- After every run the search finds a path between two vertices just when edges lead from one to
the other.  The path starts and ends there, follows edges and has the fewest edges of all walks that
do; a table of where each vertex was reached from first gives the same one. -/
theorem path_run (ops : List (Operation V E)) (a b : V) :
    let g := run ops
    ((g.path? a b).isSome = true ↔ g.hasVertex a = true ∧ g.hasVertex b = true ∧
      Relation.ReflTransGen (fun x y => g.hasEdge x y = true) a b) ∧
    (∀ p, g.path? a b = some p → IsWalk (fun x y => g.hasEdge x y = true) a b p ∧
      ∀ q, IsWalk (fun x y => g.hasEdge x y = true) a b q → p.length - 1 ≤ q.length - 1) ∧
    g.pathByTable? a b = g.path? a b := by
  intro g
  refine ⟨(linked_run ops).isSome_path?, fun p hp => ?_, g.pathByTable?_eq a b⟩
  obtain ⟨hwalk, hleast⟩ := isShortest_path? hp
  exact ⟨hwalk, fun q hq => Nat.sub_le_sub_right (hleast q hq) 1⟩

end Graph

end PlanarSketch
