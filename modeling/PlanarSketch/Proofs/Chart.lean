/-
The chart of a decomposition.

Every change of the clusters, points and merges is drawn into the chart as it
is made.  So the chart has just the vertices and edges that the clusters,
points and merges call for: no vertex is left behind when a merge is undone,
and no edge takes the place of another one.

* `Present`, `Ties`: the vertices and edges that a decomposition calls for;
* `Drawn`: the chart has just these;
* `Drawn.insertCluster`, `Drawn.addMerge`, `Drawn.withoutMerge`,
  `Drawn.discard`, `Drawn.returned`, `Drawn.markRoot`: the changes draw what
  they do.
-/
import PlanarSketch.Proofs.Graphs
import PlanarSketch.Proofs.Grounded

namespace PlanarSketch

namespace Decomposition

variable {d d' : Decomposition} {id o : ClusterId} {k : MergeId} {m : Merge} {node : ClusterNode}
  {x y : Vertex} {t : EdgeTag}

/-! ### What is called for -/

/-- A listing, or something that is there. -/
def Present (d : Decomposition) : Vertex → Prop
  | .listing _ => True
  | .point v => v ∈ d.points
  | .cluster id => d.Live id
  | .merge k => ∃ m, d.merges.find? k = some m

/-- Clusters are listed by their kind, on the top level and under the root mark, and have their
points; merges read their inputs, compute their output and need what they consumed. -/
inductive Ties (d : Decomposition) : Vertex → EdgeTag → Vertex → Prop
  | kind {id : ClusterId} {n : ClusterNode} (h : d.clusters.find? id = some n) :
      Ties d (.listing (.ofKind n.cluster.kind)) .contains (.cluster id)
  | top {id : ClusterId} (h : id ∈ d.topLevel) :
      Ties d (.listing .topLevel) .contains (.cluster id)
  | root {id : ClusterId} {n : ClusterNode} (h : d.clusters.find? id = some n)
      (hr : n.holdsRoot = true) : Ties d (.listing .root) .contains (.cluster id)
  | listed {v : PointName} (h : v ∈ d.points) : Ties d (.listing .points) .contains (.point v)
  | point {id : ClusterId} {n : ClusterNode} {v : PointName} (h : d.clusters.find? id = some n)
      (hv : v ∈ n.cluster) : Ties d (.cluster id) .contains (.point v)
  | merge {k : MergeId} {m : Merge} (h : d.merges.find? k = some m) :
      Ties d (.listing .merges) .contains (.merge k)
  | reads {k : MergeId} {m : Merge} {id : ClusterId} (h : d.merges.find? k = some m)
      (hid : id ∈ m.inputs) : Ties d (.cluster id) .dependency (.merge k)
  | writes {k : MergeId} {m : Merge} (h : d.merges.find? k = some m) :
      Ties d (.merge k) .dependency (.cluster m.output)
  | needs {k : MergeId} {m : Merge} {id : ClusterId} (h : d.merges.find? k = some m)
      (hid : id ∈ m.consumed) : Ties d (.merge k) .neededBy (.cluster id)

/-- The chart has just the vertices and edges that are called for. -/
def Drawn (d : Decomposition) : Prop := d.chart.Shows d.Present d.Ties

theorem Ties.mono (h : d.Ties x t y)
    (hc : ∀ id n, d.clusters.find? id = some n → d'.clusters.find? id = some n)
    (hm : ∀ k m, d.merges.find? k = some m → d'.merges.find? k = some m)
    (ht : ∀ id ∈ d.topLevel, id ∈ d'.topLevel) (hp : ∀ v ∈ d.points, v ∈ d'.points) :
    d'.Ties x t y := by
  cases h with
  | kind h => exact .kind (hc _ _ h)
  | top h => exact .top (ht _ h)
  | root h hr => exact .root (hc _ _ h) hr
  | listed h => exact .listed (hp _ h)
  | point h hv => exact .point (hc _ _ h) hv
  | merge h => exact .merge (hm _ _ h)
  | reads h hid => exact .reads (hm _ _ h) hid
  | writes h => exact .writes (hm _ _ h)
  | needs h hid => exact .needs (hm _ _ h) hid

/-- A listing only contains things. -/
theorem Ties.eq_contains {l : Listing} (h : d.Ties (.listing l) t y) : t = .contains := by
  generalize hx : Vertex.listing l = x at h
  cases h with
  | reads _ _ => cases hx
  | writes _ => cases hx
  | needs _ _ => cases hx
  | _ => rfl

theorem Drawn.congr (h : d.Drawn) (hg : d'.chart = d.chart) (hc : d'.clusters = d.clusters)
    (hm : d'.merges = d.merges) (ht : d'.topLevel = d.topLevel) (hp : d'.points = d.points) :
    d'.Drawn := by
  unfold Drawn
  rw [hg]
  refine Graph.Shows.congr h (fun x => ?_) fun x t y => ⟨fun h => ?_, fun h => ?_⟩
  · cases x <;> simp only [Present, Live, hc, hm, hp]
  · exact h.mono (fun _ _ h => hc ▸ h) (fun _ _ h => hm ▸ h) (fun _ h => ht ▸ h) fun _ h => hp ▸ h
  · exact h.mono (fun _ _ h => hc ▸ h) (fun _ _ h => hm ▸ h) (fun _ h => ht ▸ h) fun _ h => hp ▸ h

theorem Drawn.enqueue (h : d.Drawn) (id : ClusterId) : (d.enqueue id).Drawn :=
  h.congr rfl rfl rfl rfl rfl

theorem mem_all (l : Listing) : l ∈ Listing.all := by
  cases l <;> simp [Listing.all]

/-- The bare chart has the listings and no edge. -/
theorem shows_bare : Chart.bare.Shows (fun x => ∃ l, x = .listing l) fun _ _ _ => False := by
  have hadd : ∀ (ls : List Listing) (g : Chart) (P : Vertex → Prop),
      g.Shows P (fun _ _ _ => False) →
      (ls.foldl (fun g l => g.addVertex (.listing l)) g).Shows
        (fun x => (∃ l ∈ ls, x = .listing l) ∨ P x) fun _ _ _ => False := by
    intro ls
    induction ls with
    | nil => exact fun g P hg => hg.congr (fun x => by simp) fun _ _ _ => Iff.rfl
    | cons l rest ih =>
      intro g P hg
      refine (ih _ _ (hg.addVertex (.listing l))).congr (fun x => ?_) fun _ _ _ => Iff.rfl
      rw [List.exists_mem_cons_iff, or_assoc, or_left_comm]
  refine (hadd Listing.all .empty _ Graph.shows_empty).congr (fun x => ?_) fun _ _ _ => Iff.rfl
  simp only [mem_all, true_and, or_false]

theorem drawn_empty : empty.Drawn := by
  have hcluster : ∀ id n, empty.clusters.find? id ≠ some n := fun _ _ h => by cases h
  have hmerge : ∀ k m, empty.merges.find? k ≠ some m := fun _ _ h => by cases h
  refine shows_bare.congr (fun x => ?_) fun x t y => iff_of_false id fun h => ?_
  · -- Just the listings are there.
    cases x with
    | listing l => exact iff_of_true ⟨l, rfl⟩ trivial
    | point v => exact iff_of_false (by simp) (OrderedSet.not_mem_empty v)
    | cluster id =>
      refine iff_of_false (by simp) fun h => ?_
      obtain ⟨n, hn⟩ := Registry.mem_keys_iff.1 h
      exact hcluster id n hn
    | merge k => exact iff_of_false (by simp) fun ⟨m, hm⟩ => hmerge k m hm
  · -- An edge needs a cluster, a merge or a listed point, and there is none.
    cases h with
    | kind h => exact hcluster _ _ h
    | top h => exact OrderedSet.not_mem_empty _ h
    | root h _ => exact hcluster _ _ h
    | listed h => exact OrderedSet.not_mem_empty _ h
    | point h _ => exact hcluster _ _ h
    | merge h => exact hmerge _ _ h
    | reads h _ => exact hmerge _ _ h
    | writes h => exact hmerge _ _ h
    | needs h _ => exact hmerge _ _ h

/-! ### Listings -/

section

variable {P : Vertex → Prop} {T : Vertex → EdgeTag → Vertex → Prop} {g : Chart}

theorem shows_list {l : Listing} {v : Vertex} (h : g.Shows P T) (hl : P (.listing l))
    (htag : ∀ t, T (.listing l) t v → t = .contains) :
    (g.list l v).Shows (fun x => x = v ∨ P x)
      fun x t y => x = .listing l ∧ t = .contains ∧ y = v ∨ T x t y := by
  refine (h.addEdge htag).congr (fun x => ⟨fun hx => ?_, .inr⟩) fun _ _ _ => Iff.rfl
  exact hx.elim (fun e => .inr (e ▸ hl)) id

/-- The points of a cluster are drawn one by one, the new ones with their listing. -/
theorem shows_foldl_drawPoint (h : g.Shows P T) (hlisting : P (.listing .points))
    (hid : P (.cluster id))
    (hlisted : ∀ v, P (.point v) → T (.listing .points) .contains (.point v))
    (htag : ∀ x t v, T x t (.point v) → t = .contains) (l : List PointName) :
    (l.foldl (Chart.drawPoint id) g).Shows (fun x => (∃ v ∈ l, x = .point v) ∨ P x)
      fun x t y => (∃ v ∈ l, (x = .listing .points ∨ x = .cluster id) ∧ t = .contains ∧
        y = .point v) ∨ T x t y := by
  induction l generalizing g P T with
  | nil => exact h.congr (fun x => by simp) fun x t y => by simp
  | cons v rest ih =>
    -- With the listing and the cluster the new point stands under both.
    have hone : (Chart.drawPoint id g v).Shows (fun x => x = .point v ∨ P x)
        fun x t y => (x = .listing .points ∨ x = .cluster id) ∧ t = .contains ∧ y = .point v ∨
          T x t y := by
      unfold Chart.drawPoint
      dsimp only
      split
      · rename_i hv
        have hold := (h.vertex _).1 hv
        refine (h.addEdge (htag _ · _)).congr (fun x => ?_) fun x t y => ?_
        · exact ⟨fun hx => hx.elim (fun e => .inr (e ▸ hid)) fun hx => hx,
            fun hx => .inr hx⟩
        · constructor
          · rintro (⟨rfl, ht⟩ | ht)
            · exact .inl ⟨.inr rfl, ht⟩
            · exact .inr ht
          · rintro (⟨rfl | rfl, rfl, rfl⟩ | ht)
            · exact .inr (hlisted v hold)
            · exact .inl ⟨rfl, rfl, rfl⟩
            · exact .inr ht
      · have hlist := shows_list (v := .point v) h hlisting (htag _ · _)
        refine (hlist.addEdge fun t ht => ?_).congr (fun x => ?_) fun x t y => ?_
        · exact ht.elim (fun ht => ht.2.1) (htag _ t v)
        · constructor
          · rintro (rfl | rfl | hx)
            · exact .inr hid
            · exact .inl rfl
            · exact hx
          · exact fun hx => .inr (.inr hx)
        · constructor
          · rintro (⟨rfl, ht⟩ | ⟨rfl, ht⟩ | ht)
            · exact .inl ⟨.inr rfl, ht⟩
            · exact .inl ⟨.inl rfl, ht⟩
            · exact .inr ht
          · rintro (⟨rfl | rfl, ht⟩ | ht)
            · exact .inr (.inl ⟨rfl, ht⟩)
            · exact .inl ⟨rfl, ht⟩
            · exact .inr (.inr ht)
    refine (ih hone (.inr hlisting) (.inr hid) (fun w hw => ?_) fun x t w ht => ?_).congr
      (fun x => ?_) fun x t y => ?_
    · exact hw.imp (fun e => ⟨.inl rfl, rfl, e⟩) (hlisted w)
    · exact ht.elim (fun ht => ht.2.1) (htag x t w)
    · rw [List.exists_mem_cons_iff, or_assoc, or_left_comm]
    · rw [List.exists_mem_cons_iff, or_assoc, or_left_comm]

end

/-! ### Clusters -/

theorem find?_insertCluster {n : ClusterNode} :
    (d.insertCluster node).2.clusters.find? id = some n ↔
      d.clusters.find? id = some n ∨ id = d.clusters.nextKey ∧ n = node :=
  Registry.find?_insert_eq_some

theorem mem_listings {l : Listing} : l ∈ Chart.listings node ↔
    l = .ofKind node.cluster.kind ∨ l = .topLevel ∨ l = .root ∧ node.holdsRoot = true := by
  unfold Chart.listings
  split
  · rename_i hr
    simp [hr]
  · rename_i hr
    simp [hr]

/-- A new cluster has its listings and its points. -/
theorem ties_insertCluster : (d.insertCluster node).2.Ties x t y ↔
    (∃ v ∈ node.cluster.points.toList,
      (x = .listing .points ∨ x = .cluster d.clusters.nextKey) ∧ t = .contains ∧ y = .point v) ∨
    (∃ l ∈ Chart.listings node, x = .listing l ∧ t = .contains ∧
      y = .cluster d.clusters.nextKey) ∨ d.Ties x t y := by
  have hself : (d.insertCluster node).2.clusters.find? d.clusters.nextKey = some node :=
    find?_insertCluster.2 (.inr ⟨rfl, rfl⟩)
  constructor
  · -- An edge is new if it comes from the new cluster or from a point of it.
    intro ht
    cases ht with
    | kind h =>
      rcases find?_insertCluster.1 h with h | ⟨rfl, rfl⟩
      · exact .inr (.inr (.kind h))
      · exact .inr (.inl ⟨_, mem_listings.2 (.inl rfl), rfl, rfl, rfl⟩)
    | top h =>
      rcases OrderedSet.mem_insert.1 h with rfl | h
      · exact .inr (.inl ⟨_, mem_listings.2 (.inr (.inl rfl)), rfl, rfl, rfl⟩)
      · exact .inr (.inr (.top h))
    | root h hr =>
      rcases find?_insertCluster.1 h with h | ⟨rfl, rfl⟩
      · exact .inr (.inr (.root h hr))
      · exact .inr (.inl ⟨_, mem_listings.2 (.inr (.inr ⟨rfl, hr⟩)), rfl, rfl, rfl⟩)
    | listed h =>
      rcases mem_points_insertCluster.1 h with h | h
      · exact .inr (.inr (.listed h))
      · exact .inl ⟨_, h, .inl rfl, rfl, rfl⟩
    | point h hv =>
      rcases find?_insertCluster.1 h with h | ⟨rfl, rfl⟩
      · exact .inr (.inr (.point h hv))
      · exact .inl ⟨_, hv, .inr rfl, rfl, rfl⟩
    | merge h => exact .inr (.inr (.merge h))
    | reads h hid => exact .inr (.inr (.reads h hid))
    | writes h => exact .inr (.inr (.writes h))
    | needs h hid => exact .inr (.inr (.needs h hid))
  · -- Whatever was drawn stays, and each new edge has its reason in the new cluster.
    rintro (⟨v, hv, rfl | rfl, rfl, rfl⟩ | ⟨l, hl, rfl, rfl, rfl⟩ | ht)
    · exact .listed (mem_points_insertCluster.2 (.inr hv))
    · exact .point hself hv
    · rcases mem_listings.1 hl with rfl | rfl | ⟨rfl, hr⟩
      · exact .kind hself
      · exact .top (OrderedSet.mem_insert.2 (.inl rfl))
      · exact .root hself hr
    · exact ht.mono (fun id n h => find?_insertCluster.2 (.inl h)) (fun _ _ h => h)
        (fun id h => OrderedSet.mem_insert.2 (.inr h))
        fun v h => mem_points_insertCluster.2 (.inl h)

theorem Drawn.insertCluster (h : d.Drawn) (node : ClusterNode) :
    (d.insertCluster node).2.Drawn := by
  -- No edge leads to the new key yet.
  have hnew : ∀ x t, ¬d.Ties x t (.cluster d.clusters.nextKey) := fun x t ht =>
    not_live_nextKey (h.ends ht).2
  -- First the listings, then the points one by one.
  have hlist := Graph.Shows.foldl_addEdge h Vertex.listing (fun _ => .cluster d.clusters.nextKey)
    .contains (Chart.listings node) fun l _ t ht => absurd ht (hnew _ t)
  refine (shows_foldl_drawPoint hlist ?_ ?_ (fun v hv => ?_)
    (fun x t v ht => ?_) node.cluster.points.toList).congr (fun x => ?_) fun x t y => ?_
  · exact .inr trivial
  · exact .inl ⟨.topLevel, by simp [Chart.listings], .inr rfl⟩
  · refine hv.elim ?_ fun hv => .inr (.listed hv)
    rintro ⟨l, hl, he | he⟩ <;> cases he
  · refine ht.elim ?_ fun ht => ?_
    · rintro ⟨l, hl, -, -, he⟩
      cases he
    · cases ht <;> rfl
  · -- Vertices.
    cases x with
    | listing l => exact iff_of_true (.inr (.inr trivial)) trivial
    | point v =>
      refine Iff.trans ?_ mem_points_insertCluster.symm
      simp only [Vertex.point.injEq, exists_eq_right', reduceCtorEq, or_false, and_false,
        exists_false, false_or]
      exact or_comm
    | cluster i =>
      refine Iff.trans ?_ (live_insertCluster node).symm
      have hsome : ∃ l, l ∈ Chart.listings node := ⟨.topLevel, by simp [Chart.listings]⟩
      simp only [reduceCtorEq, and_false, exists_false, false_or, Vertex.cluster.injEq,
        exists_and_right, hsome, true_and]
      exact or_comm
    | merge k =>
      simp only [reduceCtorEq, and_false, exists_false, false_or, or_false]
      rfl
  · -- Edges.
    exact ties_insertCluster.symm

/-! ### Merges -/

variable {draft : MergeDraft}

theorem ofKind_ne_topLevel (c : ClusterKind) : Listing.ofKind c ≠ .topLevel := by
  cases c <;> exact nofun

/-- A new merge is listed, reads its inputs, computes its output and needs what it consumes, which
is no longer listed on the top level. -/
theorem ties_addMerge : (d.addMerge draft).2.Ties x t y ↔
    ((∃ id ∈ draft.consumed, x = .merge d.merges.nextKey ∧ t = .neededBy ∧ y = .cluster id) ∨
      (x = .merge d.merges.nextKey ∧ t = .dependency ∧ y = .cluster d.clusters.nextKey) ∨
      (∃ id ∈ draft.inputs, x = .cluster id ∧ t = .dependency ∧ y = .merge d.merges.nextKey) ∨
      (x = .listing .merges ∧ t = .contains ∧ y = .merge d.merges.nextKey) ∨
      (d.insertCluster (d.outputFor draft)).2.Ties x t y) ∧
    ¬∃ id ∈ draft.consumed, x = .listing .topLevel ∧ y = .cluster id := by
  have hself : (d.addMerge draft).2.merges.find? d.merges.nextKey = some (d.mergeFor draft) :=
    find?_addMerge.2 (.inr ⟨rfl, rfl⟩)
  constructor
  · -- An edge afterwards: it comes from the new merge, or it was there with the output alone. 
    -- Only one from the top level can have been struck out.
    intro ht
    cases ht with
    | kind h =>
      refine ⟨.inr (.inr (.inr (.inr (.kind h)))), ?_⟩
      rintro ⟨id, -, he, -⟩
      exact ofKind_ne_topLevel _ (Vertex.listing.inj he)
    | top h =>
      -- What is listed on the top level is not consumed.
      obtain ⟨h, hno⟩ := mem_topLevel_addMerge.1 h
      refine ⟨.inr (.inr (.inr (.inr (.top (OrderedSet.mem_insert.2 h))))), ?_⟩
      rintro ⟨id, hid, -, he⟩
      exact hno (Vertex.cluster.inj he ▸ hid)
    | root h hr => exact ⟨.inr (.inr (.inr (.inr (.root h hr)))), nofun⟩
    | listed h => exact ⟨.inr (.inr (.inr (.inr (.listed h)))), nofun⟩
    | point h hv => exact ⟨.inr (.inr (.inr (.inr (.point h hv)))), nofun⟩
    | merge h =>
      refine ⟨.inr (.inr (.inr ?_)), nofun⟩
      rcases find?_addMerge.1 h with h | ⟨rfl, rfl⟩
      · exact .inr (.merge h)
      · exact .inl ⟨rfl, rfl, rfl⟩
    | reads h hid =>
      refine ⟨.inr (.inr ?_), nofun⟩
      rcases find?_addMerge.1 h with h | ⟨rfl, rfl⟩
      · exact .inr (.inr (.reads h hid))
      · exact .inl ⟨_, hid, rfl, rfl, rfl⟩
    | writes h =>
      refine ⟨.inr ?_, nofun⟩
      rcases find?_addMerge.1 h with h | ⟨rfl, rfl⟩
      · exact .inr (.inr (.inr (.writes h)))
      · exact .inl ⟨rfl, rfl, rfl⟩
    | needs h hid =>
      refine ⟨?_, nofun⟩
      rcases find?_addMerge.1 h with h | ⟨rfl, rfl⟩
      · exact .inr (.inr (.inr (.inr (.needs h hid))))
      · exact .inl ⟨_, hid, rfl, rfl, rfl⟩
  · -- The other way round, each kind of new edge has its reason in the new merge.
    rintro ⟨⟨id, hid, rfl, rfl, rfl⟩ | ⟨rfl, rfl, rfl⟩ | ⟨id, hid, rfl, rfl, rfl⟩ |
      ⟨rfl, rfl, rfl⟩ | ht, hno⟩
    · exact .needs hself hid
    · exact .writes hself
    · exact .reads hself hid
    · exact .merge hself
    · -- The old edges stay, since merges are only added and only consumed clusters leave the top
      -- level.
      have hm : ∀ k m, (d.insertCluster (d.outputFor draft)).2.merges.find? k = some m →
          (d.addMerge draft).2.merges.find? k = some m := fun k m h => find?_addMerge.2 (.inl h)
      cases ht with
      | kind h => exact .kind h
      | @top id h =>
        refine .top (mem_topLevel_addMerge.2 ⟨OrderedSet.mem_insert.1 h, fun hid => ?_⟩)
        exact hno ⟨id, hid, rfl, rfl⟩
      | root h hr => exact .root h hr
      | listed h => exact .listed h
      | point h hv => exact .point h hv
      | merge h => exact .merge (hm _ _ h)
      | reads h hid => exact .reads (hm _ _ h) hid
      | writes h => exact .writes (hm _ _ h)
      | needs h hid => exact .needs (hm _ _ h) hid

theorem Drawn.addMerge (h : d.Drawn) (hin : ∀ id ∈ draft.inputs, d.Live id)
    (hc : ∀ id ∈ draft.consumed, id ∈ draft.inputs) : (d.addMerge draft).2.Drawn := by
  have hi := h.insertCluster (d.outputFor draft)
  have hnew : ¬(d.insertCluster (d.outputFor draft)).2.Present (.merge d.merges.nextKey) := by
    rintro ⟨m, hm⟩
    cases d.merges.find?_nextKey.symm.trans hm
  have hnone : ∀ v t, ¬(d.insertCluster (d.outputFor draft)).2.Ties v t
      (.merge d.merges.nextKey) := fun v t ht => hnew (hi.ends ht).2
  have hnone' : ∀ v t, ¬(d.insertCluster (d.outputFor draft)).2.Ties
      (.merge d.merges.nextKey) t v := fun v t ht => hnew (hi.ends ht).1
  have hlisted := shows_list (l := .merges) (v := .merge d.merges.nextKey) hi trivial
    fun t ht => absurd ht (hnone _ t)
  have hreads := hlisted.foldl_addEdge Vertex.cluster (fun _ => .merge d.merges.nextKey) .dependency
    draft.inputs fun id _ t ht => ht.elim (fun he => nomatch he.1) fun ht => absurd ht (hnone _ t)
  have hwrites := hreads.addEdge (a := .merge d.merges.nextKey)
    (b := .cluster d.clusters.nextKey) (w := .dependency) fun t ht => by
      rcases ht with ⟨_, _, he, _⟩ | ⟨he, _⟩ | ht
      · cases he
      · cases he
      · exact absurd ht (hnone' _ t)
  have hneeds := hwrites.foldl_addEdge (fun _ => .merge d.merges.nextKey) Vertex.cluster .neededBy
    draft.consumed fun id hid t ht => by
      -- The output is no input, so the edge to it is another one.
      rcases ht with ⟨-, -, he⟩ | ⟨_, _, he, _⟩ | ⟨he, _⟩ | ht
      · exact absurd (Vertex.cluster.inj he ▸ hin id (hc id hid)) not_live_nextKey
      · cases he
      · cases he
      · exact absurd ht (hnone' _ t)
  refine (hneeds.foldl_removeEdge (fun _ => .listing .topLevel) Vertex.cluster
    draft.consumed).congr (fun v => ?_) fun x t y => ties_addMerge.symm
  cases v with
  | listing l => exact iff_of_true (.inr (.inr (.inr (.inr (.inr trivial))))) trivial
  | point v =>
    simp only [reduceCtorEq, or_self, and_false, exists_false, false_or]
    rfl
  | cluster i =>
    show _ ↔ (d.addMerge draft).2.Live i
    rw [live_addMerge]
    constructor
    · rintro (⟨j, hj, he | he⟩ | he | he | ⟨j, hj, he | he⟩ | he | hl)
      · cases he
      · exact .inl (Vertex.cluster.inj he ▸ hin j (hc j hj))
      · cases he
      · exact .inr (Vertex.cluster.inj he)
      · exact .inl (Vertex.cluster.inj he ▸ hin j hj)
      · cases he
      · cases he
      · exact (live_insertCluster _).1 hl
    · exact fun hl => .inr (.inr (.inr (.inr (.inr ((live_insertCluster _).2 hl)))))
  | merge j =>
    have hpresent : (d.addMerge draft).2.Present (.merge j) ↔
        d.Present (.merge j) ∨ j = d.merges.nextKey := by
      simp only [Present, find?_addMerge, exists_or]
      simp
    rw [hpresent]
    constructor
    · rintro (⟨i, hi, he | he⟩ | he | he | ⟨i, hi, he | he⟩ | he | hl)
      any_goals first | exact .inr (Vertex.merge.inj he) | cases he
      exact .inl hl
    · rintro (hl | rfl)
      · exact .inr (.inr (.inr (.inr (.inr hl))))
      · exact .inr (.inl rfl)

/-! ### What goes -/

theorem find?_withoutMerge {j : MergeId} {m' : Merge} :
    (d.withoutMerge k).merges.find? j = some m' ↔ k ≠ j ∧ d.merges.find? j = some m' :=
  Registry.find?_erase_eq_some

/-- A merge goes with its edges. -/
theorem Drawn.withoutMerge (h : d.Drawn) (k : MergeId) : (d.withoutMerge k).Drawn := by
  refine (Graph.Shows.removeVertex h (.merge k)).congr (fun x => ?_) fun x t y => ⟨?_, fun ht => ?_⟩
  · -- Vertices: just the merge is gone.
    cases x with
    | listing l => exact and_iff_right nofun
    | point v => exact and_iff_right nofun
    | cluster i => exact and_iff_right nofun
    | merge j =>
      simp only [Present, find?_withoutMerge, exists_and_left, ne_eq, Vertex.merge.injEq,
        eq_comm (a := j)]
  · -- An edge that touches the merge nowhere is an edge without it.
    rintro ⟨ht, hx, hy⟩
    cases ht with
    | kind h => exact .kind h
    | top h => exact .top h
    | root h hr => exact .root h hr
    | listed h => exact .listed h
    | point h hv => exact .point h hv
    | merge h => exact .merge (find?_withoutMerge.2 ⟨fun e => hy (e ▸ rfl), h⟩)
    | reads h hid => exact .reads (find?_withoutMerge.2 ⟨fun e => hy (e ▸ rfl), h⟩) hid
    | writes h => exact .writes (find?_withoutMerge.2 ⟨fun e => hx (e ▸ rfl), h⟩)
    | needs h hid => exact .needs (find?_withoutMerge.2 ⟨fun e => hx (e ▸ rfl), h⟩) hid
  · -- Without the merge no edge comes from it or leads to it.
    have hne : ∀ {j m}, (d.withoutMerge k).merges.find? j = some m → Vertex.merge j ≠ .merge k :=
      fun hj e => (find?_withoutMerge.1 hj).1 (Vertex.merge.inj e).symm
    refine ⟨ht.mono (fun _ _ h => h) (fun _ _ h => (find?_withoutMerge.1 h).2) (fun _ h => h)
      fun _ h => h, ?_⟩
    cases ht with
    | kind h => exact ⟨nofun, nofun⟩
    | top h => exact ⟨nofun, nofun⟩
    | root h hr => exact ⟨nofun, nofun⟩
    | listed h => exact ⟨nofun, nofun⟩
    | point h hv => exact ⟨nofun, nofun⟩
    | merge h => exact ⟨nofun, hne h⟩
    | reads h hid => exact ⟨nofun, hne h⟩
    | writes h => exact ⟨hne h, nofun⟩
    | needs h hid => exact ⟨hne h, nofun⟩

theorem hasPoint_iff {v : PointName} :
    d.hasPoint v = true ↔ ∃ id c, d.cluster? id = some c ∧ v ∈ c := by
  simp only [hasPoint, List.any_eq_true, decide_eq_true_eq]
  constructor
  · rintro ⟨n, hn, hv⟩
    obtain ⟨id, hid⟩ := Registry.mem_values_iff.1 hn
    exact ⟨id, n.cluster, Option.map_eq_some_iff.2 ⟨n, hid, rfl⟩, hv⟩
  · rintro ⟨id, c, hc, hv⟩
    obtain ⟨n, hn, rfl⟩ := Option.map_eq_some_iff.1 hc
    exact ⟨n, Registry.mem_values_iff.2 ⟨id, hn⟩, hv⟩

/-- A point that no cluster has any more goes with its listing. -/
theorem Drawn.forgetPoint (h : d.Drawn) (v : PointName) : (d.forgetPoint v).Drawn := by
  unfold Decomposition.forgetPoint
  split
  · exact h
  · -- No cluster has the point, so only the listing leads to it.
    rename_i hv
    have hno : ∀ i n, d.clusters.find? i = some n → v ∉ n.cluster := fun i n hn hmem =>
      hv (hasPoint_iff.2 ⟨i, n.cluster, Option.map_eq_some_iff.2 ⟨n, hn, rfl⟩, hmem⟩)
    refine (Graph.Shows.removeVertex h (.point v)).congr (fun x => ?_) fun x t y =>
      ⟨?_, fun ht => ?_⟩
    · -- Vertices: just the point is gone.
      cases x with
      | listing l => exact and_iff_right nofun
      | point u =>
        show _ ∧ u ∈ d.points ↔ u ∈ d.points.erase v
        rw [OrderedSet.mem_erase, and_comm, ne_eq, Vertex.point.injEq]
      | cluster i => exact and_iff_right nofun
      | merge j => exact and_iff_right nofun
    · -- An edge that does not lead to the point stays.
      rintro ⟨ht, -, hy⟩
      cases ht with
      | kind h => exact .kind h
      | top h => exact .top h
      | root h hr => exact .root h hr
      | listed h => exact .listed (OrderedSet.mem_erase.2 ⟨h, fun e => hy (e ▸ rfl)⟩)
      | point h hv => exact .point h hv
      | merge h => exact .merge h
      | reads h hid => exact .reads h hid
      | writes h => exact .writes h
      | needs h hid => exact .needs h hid
    · -- What is left neither starts at the point nor leads to it.
      refine ⟨ht.mono (fun _ _ h => h) (fun _ _ h => h) (fun _ h => h)
        fun _ h => (OrderedSet.mem_erase.1 h).1, ?_, ?_⟩
      · rintro rfl
        cases ht
      · rintro rfl
        cases ht with
        | listed h => exact (OrderedSet.mem_erase.1 h).2 rfl
        | point h hv => exact hno _ _ h hv

/-- A cluster that no merge reads or computes goes with its listings. -/
theorem Drawn.discard (h : d.Drawn) (hg : d.Grounded)
    (ho : ∀ k m, d.merges.find? k = some m → o ∉ m.inputs ∧ m.output ≠ o) :
    (d.discard o).Drawn := by
  unfold Decomposition.discard
  split
  · exact h
  · rename_i n hn
    -- First the cluster goes alone; its points are looked at afterwards.
    have hbare : Drawn
        { d with
          clusters := d.clusters.erase o
          chart := d.chart.removeVertex (.cluster o)
          topLevel := d.topLevel.erase o
          root := if d.root = some o then none else d.root } := by
      have hne : ∀ {i : ClusterId}, i ≠ o → Vertex.cluster i ≠ .cluster o := fun hi e =>
        hi (Vertex.cluster.inj e)
      have hcl : ∀ {i n}, (d.clusters.erase o).find? i = some n →
          i ≠ o ∧ d.clusters.find? i = some n := fun hi =>
        (Registry.find?_erase_eq_some.1 hi).imp_left Ne.symm
      have hcl' : ∀ {i n}, Vertex.cluster i ≠ .cluster o → d.clusters.find? i = some n →
          (d.clusters.erase o).find? i = some n := fun hi hn =>
        Registry.find?_erase_eq_some.2 ⟨fun e => hi (e ▸ rfl), hn⟩
      refine (Graph.Shows.removeVertex h (.cluster o)).congr (fun x => ?_) fun x t y =>
        ⟨?_, fun ht => ?_⟩
      · -- Vertices: just the cluster is gone.
        cases x with
        | listing l => exact and_iff_right nofun
        | point v => exact and_iff_right nofun
        | cluster i =>
          show _ ∧ i ∈ d.clusters.keys ↔ i ∈ (d.clusters.erase o).keys
          rw [Registry.keys_erase, List.mem_filter, decide_eq_true_eq, and_comm, ne_eq,
            Vertex.cluster.injEq]
        | merge j => exact and_iff_right nofun
      · -- An edge that touches the cluster nowhere stays.
        rintro ⟨ht, hx, hy⟩
        cases ht with
        | kind h => exact .kind (hcl' hy h)
        | top h => exact .top (OrderedSet.mem_erase.2 ⟨h, fun e => hy (e ▸ rfl)⟩)
        | root h hr => exact .root (hcl' hy h) hr
        | listed h => exact .listed h
        | point h hv => exact .point (hcl' hx h) hv
        | merge h => exact .merge h
        | reads h hid => exact .reads h hid
        | writes h => exact .writes h
        | needs h hid => exact .needs h hid
      · -- What is left does not touch it: it is listed nowhere, and by `ho` no merge reads,
        -- computes or consumes it.
        refine ⟨ht.mono (fun _ _ h => (hcl h).2) (fun _ _ h => h)
          (fun _ h => (OrderedSet.mem_erase.1 h).1) fun _ h => h, ?_⟩
        cases ht with
        | kind h => exact ⟨nofun, hne (hcl h).1⟩
        | top h => exact ⟨nofun, hne (OrderedSet.mem_erase.1 h).2⟩
        | root h hr => exact ⟨nofun, hne (hcl h).1⟩
        | listed h => exact ⟨nofun, nofun⟩
        | point h hv => exact ⟨hne (hcl h).1, nofun⟩
        | merge h => exact ⟨nofun, nofun⟩
        | reads h hid => exact ⟨hne fun e => (ho _ _ h).1 (e ▸ hid), nofun⟩
        | writes h => exact ⟨nofun, hne (ho _ _ h).2⟩
        | needs h hid =>
          have hin := ((hg.merge _ _ h).mem_inputs hid).2
          exact ⟨nofun, hne fun e => (ho _ _ h).1 (e ▸ hin)⟩
    -- Then each of its points goes if no other cluster has it.
    have hfold : ∀ (l : List PointName) (d : Decomposition), d.Drawn →
        (l.foldl Decomposition.forgetPoint d).Drawn := by
      intro l
      induction l with
      | nil => exact fun _ hd => hd
      | cons v rest ih => exact fun _ hd => ih _ (hd.forgetPoint v)
    exact (hfold n.cluster.points.toList _ hbare).congr rfl rfl rfl rfl rfl

/-! ### What moves -/

/-- A cluster that returns to the top level is listed there. -/
theorem Drawn.returned (h : d.Drawn) (hid : d.Live id) : (d.returned id).Drawn := by
  refine (shows_list (l := .topLevel) (v := .cluster id) h trivial fun t => Ties.eq_contains).congr
    (fun x => ?_) fun x t y => ⟨?_, fun ht => ?_⟩
  · refine or_iff_right_of_imp ?_
    -- The cluster is in use, so its vertex is there.
    rintro rfl
    exact hid
  · -- The one new edge is that of the listing.
    rintro (⟨rfl, rfl, rfl⟩ | ht)
    · exact .top (OrderedSet.mem_insert.2 (.inl rfl))
    · exact ht.mono (fun _ _ h => h) (fun _ _ h => h) (fun _ h => OrderedSet.mem_insert.2 (.inr h))
        fun _ h => h
  · cases ht with
    | kind h => exact .inr (.kind h)
    | top h =>
      rcases OrderedSet.mem_insert.1 h with rfl | h
      · exact .inl ⟨rfl, rfl, rfl⟩
      · exact .inr (.top h)
    | root h hr => exact .inr (.root h hr)
    | listed h => exact .inr (.listed h)
    | point h hv => exact .inr (.point h hv)
    | merge h => exact .inr (.merge h)
    | reads h hid => exact .inr (.reads h hid)
    | writes h => exact .inr (.writes h)
    | needs h hid => exact .inr (.needs h hid)

theorem find?_markRoot {mark : Bool} {n : ClusterNode} (h : d.clusters.find? id = some n) :
    ∃ n', (d.markRoot mark o).clusters.find? id = some n' ∧ n'.cluster = n.cluster ∧
      n'.holdsRoot = if o = id then mark else n.holdsRoot := by
  have hfind : (d.markRoot mark o).clusters.find? id = if o = id then
      (d.clusters.find? id).map fun n => { n with holdsRoot := mark } else d.clusters.find? id :=
    Registry.find?_modify ..
  rw [hfind, h]
  split
  · exact ⟨_, rfl, rfl, rfl⟩
  · exact ⟨n, rfl, rfl, rfl⟩

theorem find?_of_markRoot {mark : Bool} {n' : ClusterNode}
    (h : (d.markRoot mark o).clusters.find? id = some n') : ∃ n, d.clusters.find? id = some n ∧
      n'.cluster = n.cluster ∧ n'.holdsRoot = if o = id then mark else n.holdsRoot := by
  have hlive : d.Live id := by
    have hkeys : (d.markRoot mark o).clusters.keys = d.clusters.keys := Registry.keys_modify ..
    rw [Live, ← hkeys]
    exact Registry.mem_keys_of_find? h
  obtain ⟨n, hn⟩ := Registry.mem_keys_iff.1 hlive
  obtain ⟨n'', hn'', hc, hr⟩ := find?_markRoot hn
  obtain rfl := Option.some_inj.1 (hn''.symm.trans h)
  exact ⟨n, hn, hc, hr⟩

/-- Without the edges from the root listing nothing has changed but one mark. -/
theorem ties_markRoot {mark : Bool} : (d.markRoot mark o).Ties x t y ↔
    (x ≠ .listing .root ∨ y ≠ .cluster o) ∧ d.Ties x t y ∨
      mark = true ∧ d.Live o ∧ x = .listing .root ∧ t = .contains ∧ y = .cluster o := by
  -- The listings of the kinds are not that of the root.
  have hkind : ∀ c, Listing.ofKind c ≠ .root := fun c => by cases c <;> exact nofun
  constructor
  · intro ht
    cases ht with
    | kind h =>
      obtain ⟨n, hn, hc, -⟩ := find?_of_markRoot h
      exact .inl ⟨.inl fun e => hkind _ (Vertex.listing.inj e), hc ▸ .kind hn⟩
    | top h => exact .inl ⟨.inl nofun, .top h⟩
    | @root i n' h hr =>
      obtain ⟨n, hn, -, hmark⟩ := find?_of_markRoot h
      -- A mark afterwards is the new one or that of another cluster.
      rw [hr] at hmark
      by_cases he : o = i
      · subst he
        rw [if_pos rfl] at hmark
        exact .inr ⟨hmark.symm, Registry.mem_keys_of_find? hn, rfl, rfl, rfl⟩
      · rw [if_neg he] at hmark
        exact .inl ⟨.inr fun e => he (Vertex.cluster.inj e).symm, .root hn hmark.symm⟩
    | listed h => exact .inl ⟨.inl nofun, .listed h⟩
    | point h hv =>
      obtain ⟨n, hn, hc, -⟩ := find?_of_markRoot h
      exact .inl ⟨.inl nofun, .point hn (hc ▸ hv)⟩
    | merge h => exact .inl ⟨.inl nofun, .merge h⟩
    | reads h hid => exact .inl ⟨.inl nofun, .reads h hid⟩
    | writes h => exact .inl ⟨.inl nofun, .writes h⟩
    | needs h hid => exact .inl ⟨.inl nofun, .needs h hid⟩
  · -- The clusters are the same with and without the mark, so the other edges stay.
    rintro (⟨hne, ht⟩ | ⟨rfl, hl, rfl, rfl, rfl⟩)
    · cases ht with
      | kind h =>
        obtain ⟨n', hn', hc, -⟩ := find?_markRoot h
        exact hc ▸ .kind hn'
      | top h => exact .top h
      | @root i n h hr =>
        obtain ⟨n', hn', -, hmark⟩ := find?_markRoot h
        have he : o ≠ i := fun e => hne.elim (fun h => h rfl) fun h => h (congrArg _ e.symm)
        rw [if_neg he] at hmark
        exact .root hn' (hmark.trans hr)
      | listed h => exact .listed h
      | point h hv =>
        obtain ⟨n', hn', hc, -⟩ := find?_markRoot h
        exact .point hn' (hc ▸ hv)
      | merge h => exact .merge h
      | reads h hid => exact .reads h hid
      | writes h => exact .writes h
      | needs h hid => exact .needs h hid
    · -- The cluster is in use, so the mark is on it.
      obtain ⟨n, hn⟩ := Registry.mem_keys_iff.1 hl
      obtain ⟨n', hn', -, hmark⟩ := find?_markRoot hn
      exact .root hn' (hmark.trans (if_pos rfl))

theorem present_markRoot {mark : Bool} : d.Present x ↔ (d.markRoot mark o).Present x := by
  cases x with
  | cluster i =>
    show i ∈ d.clusters.keys ↔ i ∈ (d.clusters.modify o _).keys
    rw [Registry.keys_modify]
  | _ => exact Iff.rfl

/-- The root mark of a cluster in use moves with its edge. -/
theorem Drawn.markRoot (h : d.Drawn) {mark : Bool} (ho : mark = true → d.Live o) :
    (d.markRoot mark o).Drawn := by
  cases mark with
  | false =>
    -- The edge is taken away.
    refine (Graph.Shows.removeEdge h (.listing .root) (.cluster o)).congr
      (fun x => present_markRoot) fun x t y => Iff.trans ?_ ties_markRoot.symm
    simp only [reduceCtorEq, false_and, or_false, not_and_or]
    exact and_comm
  | true =>
    -- The edge is added, if it was not there already.
    refine (shows_list (l := .root) (v := .cluster o) h trivial fun t => Ties.eq_contains).congr
      (fun x => (or_iff_right_of_imp ?_).trans present_markRoot) fun x t y =>
        Iff.trans ?_ ties_markRoot.symm
    · rintro rfl
      exact ho rfl
    · constructor
      · rintro (⟨rfl, rfl, rfl⟩ | ht)
        · exact .inr ⟨rfl, ho rfl, rfl, rfl, rfl⟩
        · by_cases he : x = .listing .root ∧ y = .cluster o
          · obtain ⟨rfl, rfl⟩ := he
            exact .inr ⟨rfl, ho rfl, rfl, ht.eq_contains, rfl⟩
          · exact .inl ⟨not_and_or.1 he, ht⟩
      · rintro (⟨-, ht⟩ | ⟨-, -, ht⟩)
        · exact .inr ht
        · exact .inl ht

end Decomposition

end PlanarSketch
