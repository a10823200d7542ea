/-
Closures of a graph.

A breadth-first search accepts every vertex within reach, once.  From the
successors of a vertex it finds what edges lead to, and from a vertex along
edges of either direction its component.  Components are made in the order of
the vertices, each from a vertex that none before it holds, and that is the
oldest vertex of its component: an older one that is joined with it would have
been in an earlier component, which would then hold both.

* `prefix_explore`: a search starts with what it is given;
* `Linked.mem_reachable_iff`, `Linked.mem_component_iff`: the closures;
* `Joined`, `Founds`: vertices joined by an undirected path, and the oldest
  one among them;
* `Linked.components_eq`: one component for each of the oldest;
* `closures_run`: closures and components, after every run.
-/
import PlanarSketch.Proofs.Edges
import PlanarSketch.Proofs.Schedule

namespace PlanarSketch

/-! ### The start of a search -/

section Search

variable {V : Type} [DecidableEq V] {next : V → List V} {seen queue : List V}

/-- What has been seen stays in front. -/
theorem prefix_explore (next : V → List V) (n : Nat) (seen queue : List V) :
    seen <+: explore next n seen queue := by
  induction n generalizing seen queue with
  | zero => exact List.prefix_rfl
  | succ n ih =>
    unfold explore
    split
    · exact List.prefix_rfl
    · rename_i v rest hdrop
      exact (List.prefix_append seen [v]).trans (ih (seen ++ [v]) (rest ++ next v))

end Search

namespace Graph

variable {V E : Type} [DecidableEq V] {g : Graph V E} {a b u v x : V}

/-! ### Closures -/

/-- Two vertices are joined by a path along edges of either direction. -/
def Joined (g : Graph V E) : V → V → Prop :=
  Relation.ReflTransGen fun x y => g.hasEdge x y = true ∨ g.hasEdge y x = true

theorem Joined.symm (h : g.Joined a b) : g.Joined b a := by
  induction h with
  | refl => exact .refl
  | tail _ hstep ih => exact .head hstep.symm ih

theorem Linked.mem_vertices_of_mem_outgoing (h : g.Linked) (hb : b ∈ g.outgoing a) :
    b ∈ g.vertices :=
  hasVertex_iff.1 (h.target a b (mem_outgoing.1 hb))

/-- From a vertex the search finds what edges lead to. -/
theorem Linked.mem_reachable_iff (h : g.Linked) : x ∈ g.reachable v ↔
    Relation.TransGen (fun a b => g.hasEdge a b = true) v x := by
  have hedge : (fun a b => g.hasEdge a b = true) = fun a b => b ∈ g.outgoing a := by
    funext a b
    exact propext mem_outgoing.symm
  have hsize : g.vertices.length ≤ g.vertexCount := Nat.le_of_eq (OrderedMap.length_keys _)
  rw [reachable, mem_explore_iff (fun _ _ w hw => h.mem_vertices_of_mem_outgoing hw)
    (fun w hw => h.mem_vertices_of_mem_outgoing hw) hsize, hedge, Relation.TransGen.head'_iff]

theorem Linked.mem_adjacent (h : g.Linked) :
    b ∈ g.adjacent a ↔ g.hasEdge a b = true ∨ g.hasEdge b a = true := by
  rw [adjacent, OrderedSet.mem_toList, OrderedSet.mem_ofList, List.mem_append, mem_outgoing,
    h.ingoing]

theorem Linked.mem_vertices_of_mem_adjacent (h : g.Linked) (hb : b ∈ g.adjacent a) :
    b ∈ g.vertices := by
  rcases h.mem_adjacent.1 hb with hab | hba
  · exact hasVertex_iff.1 (h.target a b hab)
  · exact hasVertex_iff.1 (Linked.source hba)

theorem Linked.mem_component_iff (h : g.Linked) (hv : v ∈ g.vertices) :
    x ∈ g.component v ↔ g.Joined v x := by
  have hstep : (fun a b => g.hasEdge a b = true ∨ g.hasEdge b a = true) =
      fun a b => b ∈ g.adjacent a := by
    funext a b
    exact propext h.mem_adjacent.symm
  have hsize : g.vertices.length ≤ g.vertexCount := Nat.le_of_eq (OrderedMap.length_keys _)
  have hqueue : ∀ u ∈ [v], u ∈ g.vertices := fun u hu => List.mem_singleton.1 hu ▸ hv
  rw [component, mem_explore_iff (fun _ _ w hw => h.mem_vertices_of_mem_adjacent hw) hqueue hsize,
    Joined, hstep]
  simp only [List.mem_singleton, exists_eq_left]

/-- A component starts with the vertex that it is made from. -/
theorem head?_component (hv : v ∈ g.vertices) : (g.component v).head? = some v := by
  obtain ⟨n, hn⟩ : ∃ n, g.vertexCount = n + 1 := by
    have hlength : g.vertices.length = g.vertexCount := g.forward.length_keys
    have hpos := List.length_pos_of_mem hv
    exact Nat.exists_eq_succ_of_ne_zero (by omega)
  have hfirst : g.component v = explore g.adjacent n [v] (g.adjacent v) := by
    rw [component, hn, explore]
    simp
  obtain ⟨rest, hrest⟩ := prefix_explore g.adjacent n [v] (g.adjacent v)
  rw [hfirst, ← hrest]
  rfl

theorem Linked.mem_vertices_of_joined (h : g.Linked) (hj : g.Joined v x) (hv : v ∈ g.vertices) :
    x ∈ g.vertices := by
  rcases Relation.ReflTransGen.cases_tail hj with rfl | ⟨u, -, hstep⟩
  · exact hv
  · exact h.mem_vertices_of_mem_adjacent (h.mem_adjacent.2 hstep)

/-! ### The oldest vertices -/

/-- How many vertices are older. -/
def age (g : Graph V E) (v : V) : Nat := g.vertices.idxOf v

theorem eq_of_age_eq (hu : u ∈ g.vertices) (h : g.age u = g.age v) : u = v :=
  (List.idxOf_inj hu).1 h

/-- The vertices stand by their age. -/
theorem pairwise_age (g : Graph V E) : g.vertices.Pairwise fun u v => g.age u < g.age v := by
  rw [List.pairwise_iff_getElem]
  intro i j hi hj hij
  have hnodup : g.vertices.Nodup := g.forward.nodup_keys
  rw [age, age, hnodup.idxOf_getElem i hi, hnodup.idxOf_getElem j hj]
  exact hij

/-- No vertex that is joined with `v` is older. -/
def Founds (g : Graph V E) (v : V) : Prop := ∀ u ∈ g.vertices, g.Joined u v → g.age v ≤ g.age u

/-- Every vertex is joined with the oldest one of its component. -/
theorem exists_founds (hv : v ∈ g.vertices) :
    ∃ u ∈ g.vertices, g.Founds u ∧ g.Joined u v := by
  induction hn : g.age v using Nat.strongRecOn generalizing v with
  | ind n ih =>
    by_cases hfounds : g.Founds v
    · exact ⟨v, hv, hfounds, .refl⟩
    · simp only [Founds, not_forall, Nat.not_le] at hfounds
      obtain ⟨w, hw, hjoined, hlt⟩ := hfounds
      obtain ⟨u, hu, hfound, huw⟩ := ih (g.age w) (hn ▸ hlt) hw rfl
      exact ⟨u, hu, hfound, huw.trans hjoined⟩

theorem Founds.eq_of_joined (hu : g.Founds u) (hv : g.Founds v) (hmem : u ∈ g.vertices)
    (hmem' : v ∈ g.vertices) (h : g.Joined u v) : u = v :=
  eq_of_age_eq hmem (Nat.le_antisymm (hu v hmem' h.symm) (hv u hmem h))

open Classical in
/-- The first vertices, taken one by one, give a component for each that is the oldest of its
own. -/
theorem Linked.foldl_addComponent (h : g.Linked) {l rest : List V} (hl : g.vertices = l ++ rest) :
    l.foldl g.addComponent [] = (l.filter fun v => g.Founds v).map g.component := by
  induction l using List.reverseRecOn generalizing rest with
  | nil => rfl
  | append_singleton l v ih =>
    rw [List.append_assoc, List.singleton_append] at hl
    have hmem : ∀ u ∈ l, u ∈ g.vertices := fun u hu => hl ▸ List.mem_append_left _ hu
    have hv : v ∈ g.vertices := hl ▸ List.mem_append_right _ List.mem_cons_self
    have hages := g.pairwise_age
    rw [hl, List.pairwise_append] at hages
    have hearlier : ∀ u ∈ l, g.age u < g.age v := fun u hu => hages.2.2 u hu v List.mem_cons_self
    have hlater : ∀ u ∈ g.vertices, g.age u < g.age v → u ∈ l := by
      intro u hu hlt
      rw [hl, List.mem_append, List.mem_cons] at hu
      rcases hu with hu | rfl | hu
      · exact hu
      · exact absurd hlt (Nat.lt_irrefl _)
      · exact absurd hlt (Nat.lt_asymm (List.rel_of_pairwise_cons hages.2.1 hu))
    -- An earlier component holds the vertex just when an older vertex is joined with it.
    have hheld : ((l.filter fun v => g.Founds v).map g.component).any (fun c => v ∈ c) = true ↔
        ¬g.Founds v := by
      simp only [List.any_eq_true, List.mem_map, List.mem_filter, decide_eq_true_eq]
      constructor
      · rintro ⟨_, ⟨u, ⟨hu, -⟩, rfl⟩, huv⟩ hfounds
        have hjoined := (h.mem_component_iff (hmem u hu)).1 huv
        exact Nat.not_le.2 (hearlier u hu) (hfounds u (hmem u hu) hjoined)
      · intro hno
        obtain ⟨u, hu, hfounds, hjoined⟩ := exists_founds hv
        have hne : u ≠ v := fun e => hno (e ▸ hfounds)
        have hlt : g.age u < g.age v := Nat.lt_of_le_of_ne (hfounds v hv hjoined.symm)
          fun e => hne (eq_of_age_eq hu e)
        exact ⟨_, ⟨u, ⟨hlater u hu hlt, hfounds⟩, rfl⟩, (h.mem_component_iff hu).2 hjoined⟩
    rw [List.foldl_append, ih hl, List.foldl_cons, List.foldl_nil, addComponent, List.filter_append]
    by_cases hfounds : g.Founds v
    · rw [if_neg (mt hheld.1 (not_not.2 hfounds))]
      simp [hfounds]
    · rw [if_pos (hheld.2 hfounds)]
      simp [hfounds]

open Classical in
/-- There is one component for every vertex that is the oldest of its own. -/
theorem Linked.components_eq (h : g.Linked) :
    g.components = (g.vertices.filter fun v => g.Founds v).map g.component :=
  h.foldl_addComponent (List.append_nil _).symm

theorem Linked.mem_components_iff (h : g.Linked) {c : List V} :
    c ∈ g.components ↔ ∃ v ∈ g.vertices, g.Founds v ∧ g.component v = c := by
  classical
  rw [h.components_eq]
  simp only [List.mem_map, List.mem_filter, decide_eq_true_eq, and_assoc]

/-! ### The components -/

/-- Two vertices are in one component just when they are joined. -/
theorem Linked.share_component_iff (h : g.Linked) (ha : a ∈ g.vertices) :
    (∃ c ∈ g.components, a ∈ c ∧ b ∈ c) ↔ g.Joined a b := by
  constructor
  · rintro ⟨c, hc, hac, hbc⟩
    obtain ⟨v, hv, -, rfl⟩ := h.mem_components_iff.1 hc
    have hva := (h.mem_component_iff hv).1 hac
    exact hva.symm.trans ((h.mem_component_iff hv).1 hbc)
  · intro hjoined
    obtain ⟨v, hv, hfounds, hva⟩ := exists_founds ha
    exact ⟨g.component v, h.mem_components_iff.2 ⟨v, hv, hfounds, rfl⟩,
      (h.mem_component_iff hv).2 hva, (h.mem_component_iff hv).2 (hva.trans hjoined)⟩

/-- The components split the vertices. -/
theorem Linked.flatten_components_perm (h : g.Linked) : g.components.flatten.Perm g.vertices := by
  classical
  have hvertices : g.vertices.Nodup := g.forward.nodup_keys
  have hnodup : g.components.flatten.Nodup := by
    rw [List.nodup_flatten]
    constructor
    · intro c hc
      obtain ⟨v, -, -, rfl⟩ := h.mem_components_iff.1 hc
      exact nodup_explore g.adjacent g.vertexCount [v] List.nodup_nil
    · -- Two components with a common vertex would have the same oldest vertex.
      rw [h.components_eq, List.pairwise_map]
      refine (hvertices.filter _).imp_of_mem fun {u v} hu hv hne x hxu hxv => hne ?_
      simp only [List.mem_filter, decide_eq_true_eq] at hu hv
      have hux := (h.mem_component_iff hu.1).1 hxu
      have hvx := (h.mem_component_iff hv.1).1 hxv
      exact hu.2.eq_of_joined hv.2 hu.1 hv.1 (hux.trans hvx.symm)
  refine (List.perm_ext_iff_of_nodup hnodup hvertices).2 fun x => ?_
  rw [List.mem_flatten]
  constructor
  · -- What is joined to a vertex is a vertex, and every vertex is in its own component.
    rintro ⟨c, hc, hx⟩
    obtain ⟨v, hv, -, rfl⟩ := h.mem_components_iff.1 hc
    exact h.mem_vertices_of_joined ((h.mem_component_iff hv).1 hx) hv
  · intro hx
    obtain ⟨c, hc, hxc, -⟩ := (h.share_component_iff hx).2 .refl
    exact ⟨c, hc, hxc⟩

/-- A component starts with its oldest vertex. -/
theorem Linked.exists_cons_component (h : g.Linked) (hv : v ∈ g.vertices) (hfounds : g.Founds v) :
    ∃ rest, g.component v = v :: rest ∧ ∀ w ∈ rest, g.age v < g.age w := by
  have hnodup : (g.component v).Nodup := nodup_explore g.adjacent g.vertexCount [v] List.nodup_nil
  obtain ⟨rest, hrest⟩ := List.head?_eq_some_iff.1 (head?_component hv)
  rw [hrest] at hnodup
  refine ⟨rest, hrest, fun w hw => ?_⟩
  have hjoined : g.Joined v w :=
    (h.mem_component_iff hv).1 (hrest ▸ List.mem_cons_of_mem v hw)
  have hwv := hfounds w (h.mem_vertices_of_joined hjoined hv) hjoined.symm
  refine Nat.lt_of_le_of_ne hwv fun e => (List.nodup_cons.1 hnodup).1 ?_
  exact eq_of_age_eq hv e ▸ hw

/-- After every run, what is reachable from a vertex is what one edge or more lead to, each vertex
once.  The components split the vertices, so that two vertices share one just when an undirected
path joins them; every component starts with its oldest vertex, and they stand by the age of
these. -/
theorem closures_run (ops : List (Operation V E)) :
    let g := run ops
    (∀ v, (g.reachable v).Nodup ∧
      ∀ x, x ∈ g.reachable v ↔ Relation.TransGen (fun a b => g.hasEdge a b = true) v x) ∧
    g.components.flatten.Perm g.vertices ∧
    (∀ a ∈ g.vertices, ∀ b ∈ g.vertices, (∃ c ∈ g.components, a ∈ c ∧ b ∈ c) ↔ g.Joined a b) ∧
    (∀ c ∈ g.components, ∃ v rest, c = v :: rest ∧ ∀ w ∈ rest, g.age v < g.age w) ∧
    g.components.Pairwise fun c d => ∀ v ∈ c.head?, ∀ w ∈ d.head?, g.age v < g.age w := by
  classical
  intro g
  have h : g.Linked := linked_run ops
  refine ⟨fun v => ⟨?_, fun x => h.mem_reachable_iff⟩, h.flatten_components_perm,
    fun a ha b _ => h.share_component_iff ha, fun c hc => ?_, ?_⟩
  · exact nodup_explore g.outgoing g.vertexCount (g.outgoing v) List.nodup_nil
  · obtain ⟨v, hv, hfounds, rfl⟩ := h.mem_components_iff.1 hc
    exact ⟨v, h.exists_cons_component hv hfounds⟩
  · rw [h.components_eq, List.pairwise_map]
    refine (g.pairwise_age.filter _).imp_of_mem fun {u v} hu hv hlt x hx y hy => ?_
    rw [head?_component (List.mem_of_mem_filter hu), Option.mem_some_iff] at hx
    rw [head?_component (List.mem_of_mem_filter hv), Option.mem_some_iff] at hy
    rwa [← hx, ← hy]

end Graph

end PlanarSketch
