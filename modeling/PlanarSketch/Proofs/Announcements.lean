/-
Subscribers can rebuild a graph from its events.

A call publishes an event for every vertex and edge that it adds or removes,
the ends before a new edge and the edges before their vertex, and none for
what stays as it is.  Each event can be carried out on the vertices and edges
that the events before it lead to, and a subscriber gets every event once, in
order, however often it looks.

* `Skeleton`, `Skeleton.replay`: vertices and edges, and what events make of
  them;
* `announced`: the events that a call publishes;
* `Reports`: two graphs of which the second is the first after some events;
* `announcements_run`: what a subscriber has been told, after every run.
-/
import Mathlib.Data.Finset.Basic
import Mathlib.Data.Finset.Dedup
import PlanarSketch.Proofs.Adjacency
import PlanarSketch.Proofs.Edges

namespace PlanarSketch

/-! ### Feeds -/

namespace Feed

variable {ε : Type} {f : Feed ε} {l m : ListenerId ε}

theorem isSubscribed_foldl_publish (f : Feed ε) (events : List ε) (l : ListenerId ε) :
    (events.foldl publish f).isSubscribed l = f.isSubscribed l := by
  induction events generalizing f with
  | nil => rfl
  | cons e rest ih => rw [List.foldl_cons, ih, isSubscribed_publish]

/-- What is published arrives in order. -/
theorem queue_foldl_publish (events : List ε) (h : f.isSubscribed l = true) :
    (events.foldl publish f).queue l = f.queue l ++ events := by
  induction events generalizing f with
  | nil => simp
  | cons e rest ih =>
    have hstill : (f.publish e).isSubscribed l = true := by rwa [isSubscribed_publish]
    rw [List.foldl_cons, ih hstill, queue_publish f e h]
    simp

theorem isSubscribed_subscribe :
    f.subscribe.2.isSubscribed l = true ↔ l = f.subscribe.1 ∨ f.isSubscribed l = true := by
  simp only [isSubscribed, subscribe, Registry.contains_iff, Registry.keys_insert, List.mem_append,
    List.mem_singleton]
  exact or_comm

theorem isSubscribed_unsubscribe :
    (f.unsubscribe l).isSubscribed m = true ↔ f.isSubscribed m = true ∧ m ≠ l := by
  simp only [isSubscribed, unsubscribe, Registry.contains_iff, Registry.keys_erase, List.mem_filter,
    decide_eq_true_eq]

/-- A further subscriber changes no queue. -/
theorem queue_subscribe_of_isSubscribed (h : f.isSubscribed l = true) :
    f.subscribe.2.queue l = f.queue l := by
  have hne : f.queues.nextKey ≠ l := by
    rintro rfl
    exact f.queues.nextKey_not_mem_keys (Registry.contains_iff.1 h)
  simp [queue, subscribe, Registry.find?_insert, hne]

/-- The listener had a subscription once. -/
structure Departed (f : Feed ε) (l : ListenerId ε) : Prop where
  issued : l.serial ≤ f.queues.issued
  gone : f.isSubscribed l = false

theorem departed_unsubscribe (h : f.isSubscribed l = true) : (f.unsubscribe l).Departed l where
  issued := (f.queues.bounded l (Registry.contains_iff.1 h)).2
  gone := by
    rw [← Bool.not_eq_true, isSubscribed_unsubscribe]
    exact fun hno => hno.2 rfl

theorem Departed.foldl_publish (h : f.Departed l) (events : List ε) :
    (events.foldl publish f).Departed l := by
  induction events generalizing f with
  | nil => exact h
  | cons e rest ih =>
    exact ih ⟨h.issued, by rw [isSubscribed_publish, h.gone]⟩

/-- Keys are not handed out twice, so nobody comes back. -/
theorem Departed.subscribe (h : f.Departed l) : f.subscribe.2.Departed l := by
  have hissued : f.subscribe.2.queues.issued = f.queues.issued + 1 := rfl
  have hnew : l ≠ f.subscribe.1 := by
    rintro rfl
    have hle : f.queues.issued + 1 ≤ f.queues.issued := h.issued
    omega
  refine ⟨?_, ?_⟩
  · have hle := h.issued
    omega
  · rw [← Bool.not_eq_true, isSubscribed_subscribe, h.gone]
    simp [hnew]

theorem Departed.unsubscribe (h : f.Departed l) (m : ListenerId ε) :
    (f.unsubscribe m).Departed l := by
  refine ⟨h.issued, ?_⟩
  rw [← Bool.not_eq_true, isSubscribed_unsubscribe, h.gone]
  simp

theorem Departed.drain (h : f.Departed l) (m : ListenerId ε) : (f.drain m).2.Departed l :=
  ⟨h.issued, by rw [isSubscribed_drain, h.gone]⟩

end Feed

/-! ### Vertices and edges -/

/-- Vertices, and edges without their weights. -/
@[ext]
structure Skeleton (V : Type) where
  vertices : Finset V
  edges : Finset (V × V)

namespace Skeleton

variable {V : Type} [DecidableEq V]

/-- The vertices and edges after an event that can be carried out: nothing is added twice, an edge
joins vertices, only what is there is removed, and a vertex only when no edge is left at it. -/
def apply (s : Skeleton V) : GraphEvent V → Option (Skeleton V)
  | .addVertex v => if v ∈ s.vertices then none else some { s with vertices := insert v s.vertices }
  | .removeVertex v =>
    if v ∈ s.vertices ∧ ∀ e ∈ s.edges, e.1 ≠ v ∧ e.2 ≠ v then
      some { s with vertices := s.vertices.erase v }
    else none
  | .addEdge a b =>
    if a ∈ s.vertices ∧ b ∈ s.vertices ∧ (a, b) ∉ s.edges then
      some { s with edges := insert (a, b) s.edges }
    else none
  | .removeEdge a b =>
    if (a, b) ∈ s.edges then some { s with edges := s.edges.erase (a, b) } else none

/-- The vertices and edges after events that can be carried out one after the other. -/
def replay (s : Skeleton V) (events : List (GraphEvent V)) : Option (Skeleton V) :=
  events.foldlM apply s

theorem replay_append (s : Skeleton V) (events events' : List (GraphEvent V)) :
    s.replay (events ++ events') = (s.replay events).bind fun t => t.replay events' := by
  simp [replay]

end Skeleton

namespace Graph

variable {V E : Type} [DecidableEq V] {g g' g'' : Graph V E} {a b v x y : V} {w : E}
  {events events' : List (GraphEvent V)} {l : ListenerId (GraphEvent V)}

/-- The vertices and edges of a graph. -/
def skeleton (g : Graph V E) : Skeleton V where
  vertices := g.vertices.toFinset
  edges := (g.edges.map fun e => (e.1, e.2.1)).toFinset

theorem mem_vertices_skeleton : v ∈ g.skeleton.vertices ↔ g.hasVertex v = true := by
  rw [hasVertex_iff]
  exact List.mem_toFinset

theorem mem_edges_skeleton {e : V × V} : e ∈ g.skeleton.edges ↔ g.hasEdge e.1 e.2 = true := by
  rw [hasEdge_iff_mem_edges, skeleton, List.mem_toFinset, List.mem_map]
  constructor
  · rintro ⟨d, hd, rfl⟩
    exact ⟨d.2.2, hd⟩
  · rintro ⟨w, hw⟩
    exact ⟨(e.1, e.2, w), hw, rfl⟩

/-- The skeleton is what the queries say. -/
theorem skeleton_eq_iff {s : Skeleton V} : g.skeleton = s ↔
    (∀ v, g.hasVertex v = true ↔ v ∈ s.vertices) ∧
      ∀ e : V × V, g.hasEdge e.1 e.2 = true ↔ e ∈ s.edges := by
  rw [Skeleton.ext_iff, Finset.ext_iff, Finset.ext_iff]
  simp only [mem_vertices_skeleton, mem_edges_skeleton]

/-! ### Reports -/

/-- The second graph is the first one after the events: just these have been published, each of them
could be carried out, and what they lead to is there. -/
structure Reports (g : Graph V E) (events : List (GraphEvent V)) (g' : Graph V E) : Prop where
  feed : g'.feed = events.foldl Feed.publish g.feed
  replay : g.skeleton.replay events = some g'.skeleton

theorem reports_nil (hfeed : g'.feed = g.feed) (h : g'.skeleton = g.skeleton) : g.Reports [] g' :=
  ⟨hfeed, congrArg some h.symm⟩

theorem reports_single {e : GraphEvent V} (hfeed : g'.feed = g.feed.publish e)
    (h : g.skeleton.apply e = some g'.skeleton) : g.Reports [e] g' :=
  ⟨hfeed, by simp [Skeleton.replay, h]⟩

theorem Reports.trans (h : g.Reports events g') (h' : g'.Reports events' g'') :
    g.Reports (events ++ events') g'' where
  feed := by rw [List.foldl_append, ← h.feed, h'.feed]
  replay := by rw [Skeleton.replay_append, h.replay, Option.bind_some, h'.replay]

/-! ### What is announced -/

/-- The events that a call publishes, oldest first. -/
def announced (g : Graph V E) : Operation V E → List (GraphEvent V)
  | .addVertex v => if g.hasVertex v then [] else [.addVertex v]
  | .addEdge a b _ =>
    (if g.hasVertex a then [] else [.addVertex a]) ++
      (if g.hasVertex b || decide (b = a) then [] else [.addVertex b]) ++
      if g.hasEdge a b then [] else [.addEdge a b]
  | .removeEdge a b => if g.hasEdge a b then [.removeEdge a b] else []
  | .removeVertex v =>
    if g.hasVertex v then
      -- A loop is among the edges that leave the vertex and is gone after them.
      ((g.outgoing v).map fun b => .removeEdge v b) ++
        (((g.ingoing v).filter fun a => a ≠ v).map fun a => .removeEdge a v) ++ [.removeVertex v]
    else []
  | .subscribe | .unsubscribe _ | .drain _ => []

theorem reports_addVertex (g : Graph V E) (v : V) :
    g.Reports (if g.hasVertex v then [] else [.addVertex v]) (g.addVertex v) := by
  by_cases hv : g.hasVertex v = true
  · -- Nothing happens, and nothing is announced.
    have heq : g.addVertex v = g := by rw [addVertex, if_pos hv]
    rw [if_pos hv, heq]
    exact reports_nil rfl rfl
  · -- The vertex is new, so the event can be carried out.
    have hnew : v ∉ g.skeleton.vertices := mt mem_vertices_skeleton.1 hv
    have hskeleton : (g.addVertex v).skeleton =
        { g.skeleton with vertices := insert v g.skeleton.vertices } := by
      rw [skeleton_eq_iff]
      constructor
      · intro x
        rw [hasVertex_addVertex, Finset.mem_insert, mem_vertices_skeleton]
      · intro e
        rw [hasEdge_addVertex, mem_edges_skeleton]
    rw [if_neg hv]
    refine reports_single ?_ ?_
    · rw [addVertex, if_neg hv]
      rfl
    · rw [Skeleton.apply, if_neg hnew, hskeleton]

theorem feed_addEdge (g : Graph V E) (a b : V) (w : E) : (g.addEdge a b w).feed =
    if g.hasEdge a b then ((g.addVertex a).addVertex b).feed
    else ((g.addVertex a).addVertex b).feed.publish (.addEdge a b) := by
  have hedge : ((g.addVertex a).addVertex b).hasEdge a b = g.hasEdge a b := by simp
  rw [← hedge, addEdge]
  split <;> rfl

theorem reports_addEdge (g : Graph V E) (a b : V) (w : E) :
    g.Reports (g.announced (.addEdge a b w)) (g.addEdge a b w) := by
  have hb : (g.addVertex a).hasVertex b = (g.hasVertex b || decide (b = a)) := by
    rw [Bool.eq_iff_iff, hasVertex_addVertex]
    simp [or_comm]
  have hends := (g.reports_addVertex a).trans ((g.addVertex a).reports_addVertex b)
  rw [hb] at hends
  refine hends.trans ?_
  have hfeed := g.feed_addEdge a b w
  have hvertex : ∀ x, (g.addEdge a b w).hasVertex x = true ↔
      ((g.addVertex a).addVertex b).hasVertex x = true := by
    intro x
    rw [hasVertex_addEdge, hasVertex_addVertex, hasVertex_addVertex, or_left_comm]
  have hedge : ∀ x y, (g.addEdge a b w).hasEdge x y = true ↔
      x = a ∧ y = b ∨ ((g.addVertex a).addVertex b).hasEdge x y = true := by
    intro x y
    rw [hasEdge_addEdge, hasEdge_addVertex, hasEdge_addVertex]
  by_cases hab : g.hasEdge a b = true
  · rw [if_pos hab] at hfeed ⊢
    refine reports_nil hfeed (skeleton_eq_iff.2 ⟨fun x => ?_, fun e => ?_⟩)
    · rw [hvertex, mem_vertices_skeleton]
    · rw [hedge, mem_edges_skeleton]
      refine or_iff_right_of_imp ?_
      rintro ⟨h₁, h₂⟩
      rw [h₁, h₂]
      simpa using hab
  · rw [if_neg hab] at hfeed ⊢
    refine reports_single hfeed ?_
    have happly : a ∈ ((g.addVertex a).addVertex b).skeleton.vertices ∧
        b ∈ ((g.addVertex a).addVertex b).skeleton.vertices ∧
        (a, b) ∉ ((g.addVertex a).addVertex b).skeleton.edges := by
      simp [mem_vertices_skeleton, mem_edges_skeleton, hab]
    rw [Skeleton.apply, if_pos happly, eq_comm, Option.some_inj, skeleton_eq_iff]
    constructor
    · intro x
      rw [hvertex, mem_vertices_skeleton]
    · intro e
      rw [hedge, Finset.mem_insert, mem_edges_skeleton, Prod.ext_iff]

theorem reports_removeEdge (g : Graph V E) (a b : V) :
    g.Reports (if g.hasEdge a b then [.removeEdge a b] else []) (g.removeEdge a b) := by
  by_cases hab : g.hasEdge a b = true
  · -- The edge is there, so the event can be carried out.
    have hmem : (a, b) ∈ g.skeleton.edges := mem_edges_skeleton.2 hab
    have hskeleton : (g.removeEdge a b).skeleton =
        { g.skeleton with edges := g.skeleton.edges.erase (a, b) } := by
      rw [skeleton_eq_iff]
      constructor
      · intro x
        rw [hasVertex_removeEdge, mem_vertices_skeleton]
      · intro e
        rw [hasEdge_removeEdge, Finset.mem_erase, mem_edges_skeleton, and_comm, Ne, Prod.ext_iff]
    rw [if_pos hab]
    refine reports_single ?_ ?_
    · rw [removeEdge, if_pos hab]
      rfl
    · rw [Skeleton.apply, if_pos hmem, hskeleton]
  · -- Nothing happens, and nothing is announced.
    have heq : g.removeEdge a b = g := by rw [removeEdge, if_neg hab]
    rw [if_neg hab, heq]
    exact reports_nil rfl rfl

/-- Different edges that are removed one by one are announced one by one. -/
theorem reports_foldl_removeEdge (source target : V → V)
    (hends : ∀ x y, source x = source y → target x = target y → x = y) {l : List V} (hl : l.Nodup)
    (hedge : ∀ x ∈ l, g.hasEdge (source x) (target x) = true) :
    g.Reports (l.map fun x => .removeEdge (source x) (target x))
      (l.foldl (fun g x => g.removeEdge (source x) (target x)) g) := by
  induction l generalizing g with
  | nil => exact reports_nil rfl rfl
  | cons x rest ih =>
    obtain ⟨hx, hrest⟩ := List.nodup_cons.1 hl
    have hfirst := g.reports_removeEdge (source x) (target x)
    rw [if_pos (hedge x List.mem_cons_self)] at hfirst
    refine hfirst.trans (ih hrest ?_)
    -- The edge that has just been removed is none of the others.
    intro y hy
    rw [hasEdge_removeEdge]
    refine ⟨hedge y (List.mem_cons_of_mem x hy), fun ⟨h₁, h₂⟩ => ?_⟩
    have hyx : y = x := hends y x h₁ h₂
    exact hx (hyx ▸ hy)

/-- Before a vertex goes its edges do. -/
theorem Linked.reports_removeVertex (h : g.Linked) (v : V) :
    g.Reports (g.announced (.removeVertex v)) (g.removeVertex v) := by
  by_cases hv : g.hasVertex v = true
  · -- First the edges that leave the vertex are announced, a loop among them.
    have hleave : g.Reports ((g.outgoing v).map fun b => .removeEdge v b) (g.isolateForward v) :=
      reports_foldl_removeEdge (fun _ => v) id (fun x y _ hxy => hxy) (g.nodup_outgoing v)
        fun x hx => mem_outgoing.1 hx
    have hlinked : (g.isolateForward v).Linked :=
      (h.foldl_removeEdge (fun _ => v) id (g.outgoing v)).1
    -- Then those that enter it, of which the loop is no longer one.
    have henter : (g.isolateForward v).Reports
        (((g.ingoing v).filter fun a => a ≠ v).map fun a => .removeEdge a v)
        ((g.isolateForward v).isolateBackward v) := by
      rw [← h.ingoing_isolateForward]
      exact reports_foldl_removeEdge id (fun _ => v) (fun x y hxy _ => hxy)
        ((g.isolateForward v).nodup_ingoing v) fun x hx => (hlinked.ingoing x v).1 hx
    obtain ⟨-, hvertex, hweight⟩ := h.isolate v
    -- By then no edge touches the vertex, so the last event can be carried out.
    have hedge : ∀ x y, ((g.isolateForward v).isolateBackward v).hasEdge x y = true ↔
        g.hasEdge x y = true ∧ x ≠ v ∧ y ≠ v := by
      intro x y
      rw [hasEdge, hweight, hasEdge]
      by_cases hxy : x = v ∨ y = v
      · rw [if_pos hxy]
        simp only [Option.isSome_none, Bool.false_eq_true, false_iff]
        tauto
      · rw [if_neg hxy]
        tauto
    have hlast : ((g.isolateForward v).isolateBackward v).Reports [.removeVertex v]
        (g.removeVertex v) := by
      have happly : v ∈ ((g.isolateForward v).isolateBackward v).skeleton.vertices ∧
          ∀ e ∈ ((g.isolateForward v).isolateBackward v).skeleton.edges, e.1 ≠ v ∧ e.2 ≠ v := by
        constructor
        · rw [mem_vertices_skeleton, hvertex, hv]
        · intro e he
          rw [mem_edges_skeleton, hedge] at he
          exact he.2
      refine reports_single ?_ ?_
      · rw [Graph.removeVertex, if_pos hv]
        rfl
      · rw [Skeleton.apply, if_pos happly, eq_comm, Option.some_inj, skeleton_eq_iff]
        constructor
        · intro x
          rw [h.hasVertex_removeVertex, Finset.mem_erase, mem_vertices_skeleton, hvertex]
        · intro e
          rw [h.hasEdge_removeVertex, mem_edges_skeleton, hedge]
    rw [announced, if_pos hv]
    exact (hleave.trans henter).trans hlast
  · -- Nothing happens, and nothing is announced.
    have heq : g.removeVertex v = g := by rw [Graph.removeVertex, if_neg hv]
    rw [announced, if_neg hv, heq]
    exact reports_nil rfl rfl

/-! ### One call -/

/-- What a call makes a subscriber take from its queue. -/
def received (g : Graph V E) (l : ListenerId (GraphEvent V)) :
    Operation V E → List (GraphEvent V)
  | .drain m => if m = l then (g.drain m).1 else []
  | _ => []

theorem Linked.replay_perform (h : g.Linked) (op : Operation V E) :
    g.skeleton.replay (g.announced op) = some (g.perform op).skeleton := by
  cases op with
  | addVertex v => exact (g.reports_addVertex v).replay
  | removeVertex v => exact (h.reports_removeVertex v).replay
  | addEdge a b w => exact (g.reports_addEdge a b w).replay
  | removeEdge a b => exact (g.reports_removeEdge a b).replay
  | subscribe | unsubscribe l | drain l => rfl

theorem Reports.queue (h : g.Reports events g') (hl : g.feed.isSubscribed l = true) :
    g'.feed.isSubscribed l = true ∧ g'.feed.queue l = g.feed.queue l ++ events := by
  rw [h.feed, Feed.isSubscribed_foldl_publish, Feed.queue_foldl_publish events hl]
  exact ⟨hl, rfl⟩

/-- What a subscriber takes and what stays in its queue is what was there and what is announced. -/
theorem Linked.queue_perform (h : g.Linked) (hl : g.feed.isSubscribed l = true)
    {op : Operation V E} (hop : op ≠ .unsubscribe l) :
    (g.perform op).feed.isSubscribed l = true ∧
      g.received l op ++ (g.perform op).feed.queue l = g.feed.queue l ++ g.announced op := by
  cases op with
  | addVertex v => exact (g.reports_addVertex v).queue hl
  | removeVertex v => exact (h.reports_removeVertex v).queue hl
  | addEdge a b w => exact (g.reports_addEdge a b w).queue hl
  | removeEdge a b => exact (g.reports_removeEdge a b).queue hl
  | subscribe =>
    -- The calls on the feed announce nothing, and leave the queues of others alone.
    refine ⟨Feed.isSubscribed_subscribe.2 (.inr hl), ?_⟩
    have hqueue : (g.perform .subscribe).feed.queue l = g.feed.queue l :=
      Feed.queue_subscribe_of_isSubscribed hl
    simp [received, announced, hqueue]
  | unsubscribe m =>
    have hne : m ≠ l := fun he => hop (he ▸ rfl)
    refine ⟨Feed.isSubscribed_unsubscribe.2 ⟨hl, hne.symm⟩, ?_⟩
    have hqueue : (g.perform (.unsubscribe m)).feed.queue l = g.feed.queue l :=
      (Feed.queue_unsubscribe ..).trans (if_neg hne)
    simp [received, announced, hqueue]
  | drain m =>
    refine ⟨(Feed.isSubscribed_drain ..).trans hl, ?_⟩
    have hqueue : (g.perform (.drain m)).feed.queue l = if m = l then [] else g.feed.queue l :=
      Feed.queue_drain ..
    have htaken : (g.drain m).1 = g.feed.queue m := rfl
    by_cases hm : m = l
    · subst hm
      simp [received, announced, hqueue, htaken]
    · simp [received, announced, hqueue, hm]

/-- Nothing reaches one who has gone. -/
theorem Linked.departed_perform (h : g.Linked) (hl : g.feed.Departed l) (op : Operation V E) :
    (g.perform op).feed.Departed l ∧ g.received l op = [] := by
  -- What is announced goes to subscribers only.
  have hreport : ∀ {events g'}, g.Reports events g' → g'.feed.Departed l := by
    intro events g' hreport
    rw [hreport.feed]
    exact hl.foldl_publish events
  cases op with
  | addVertex v => exact ⟨hreport (g.reports_addVertex v), rfl⟩
  | removeVertex v => exact ⟨hreport (h.reports_removeVertex v), rfl⟩
  | addEdge a b w => exact ⟨hreport (g.reports_addEdge a b w), rfl⟩
  | removeEdge a b => exact ⟨hreport (g.reports_removeEdge a b), rfl⟩
  | subscribe => exact ⟨hl.subscribe, rfl⟩
  | unsubscribe m => exact ⟨hl.unsubscribe m, rfl⟩
  | drain m =>
    refine ⟨hl.drain m, ?_⟩
    have htaken : (g.drain m).1 = g.feed.queue m := rfl
    rw [received, htaken]
    split
    · -- A drain finds the queue of one who has gone empty.
      rename_i hm
      rw [hm, Feed.queue_of_not_isSubscribed hl.gone]
    · rfl

/-! ### All runs -/

/-- The events that a run of calls publishes, oldest first. -/
def announcedAlong (g : Graph V E) : List (Operation V E) → List (GraphEvent V)
  | [] => []
  | op :: rest => g.announced op ++ (g.perform op).announcedAlong rest

/-- What a subscriber takes from its queue during a run of calls. -/
def receivedAlong (g : Graph V E) (l : ListenerId (GraphEvent V)) :
    List (Operation V E) → List (GraphEvent V)
  | [] => []
  | op :: rest => g.received l op ++ (g.perform op).receivedAlong l rest

theorem Linked.replay_along (h : g.Linked) (ops : List (Operation V E)) :
    g.skeleton.replay (g.announcedAlong ops) = some (ops.foldl Graph.perform g).skeleton := by
  induction ops generalizing g with
  | nil => rfl
  | cons op rest ih =>
    rw [announcedAlong, Skeleton.replay_append, h.replay_perform, Option.bind_some,
      ih (h.perform op), List.foldl_cons]

theorem Linked.queue_along (h : g.Linked) (hl : g.feed.isSubscribed l = true)
    {ops : List (Operation V E)} (hops : ∀ op ∈ ops, op ≠ .unsubscribe l) :
    (ops.foldl Graph.perform g).feed.isSubscribed l = true ∧
      g.receivedAlong l ops ++ (ops.foldl Graph.perform g).feed.queue l =
        g.feed.queue l ++ g.announcedAlong ops := by
  induction ops generalizing g with
  | nil => simp [receivedAlong, announcedAlong, hl]
  | cons op rest ih =>
    obtain ⟨hstill, hqueue⟩ := h.queue_perform hl (hops op List.mem_cons_self)
    obtain ⟨hend, hrest⟩ := ih (h.perform op) hstill fun op' hop' =>
      hops op' (List.mem_cons_of_mem op hop')
    refine ⟨hend, ?_⟩
    rw [receivedAlong, announcedAlong, List.foldl_cons, List.append_assoc, hrest,
      ← List.append_assoc, hqueue, List.append_assoc]

theorem Linked.departed_along (h : g.Linked) (hl : g.feed.Departed l)
    (ops : List (Operation V E)) : (ops.foldl Graph.perform g).feed.queue l = [] ∧
      g.receivedAlong l ops = [] := by
  induction ops generalizing g with
  | nil => exact ⟨Feed.queue_of_not_isSubscribed hl.gone, rfl⟩
  | cons op rest ih =>
    obtain ⟨hstill, hnone⟩ := h.departed_perform hl op
    obtain ⟨hqueue, hrest⟩ := ih (h.perform op) hstill
    refine ⟨hqueue, ?_⟩
    rw [receivedAlong, hnone, hrest]
    rfl

/-- A subscriber that comes after some calls and stays during others has taken, or still has in its
queue, just the events that these published, in order.  Replayed on the vertices and edges that were
there when it came, they can all be carried out and lead to the present ones.  Once it has gone it
gets nothing more, whatever is called. -/
theorem announcements_run (before after later : List (Operation V E))
    (h : ∀ op ∈ after, op ≠ .unsubscribe (run before).subscribe.1) :
    let l := (run before).subscribe.1
    let start := run (before ++ [.subscribe])
    let g := run (before ++ .subscribe :: after)
    start.receivedAlong l after ++ g.feed.queue l = start.announcedAlong after ∧
    start.skeleton.replay (start.announcedAlong after) = some g.skeleton ∧
    (g.unsubscribe l).receivedAlong l later = [] ∧
    (run (before ++ .subscribe :: after ++ .unsubscribe l :: later)).feed.queue l = [] := by
  intro l start g
  have hlinked : start.Linked := linked_run _
  have hstart : start = (run before).subscribe.2 := by simp [start, run, perform]
  have hg : g = after.foldl Graph.perform start := by simp [g, start, run]
  have hsubscribed : start.feed.isSubscribed l = true := by
    rw [hstart]
    exact Feed.isSubscribed_subscribe.2 (.inl rfl)
  -- A new subscriber starts with an empty queue.
  have hempty : start.feed.queue l = [] := by
    rw [hstart]
    exact Feed.queue_subscribe ..
  obtain ⟨hstill, hqueue⟩ := hlinked.queue_along hsubscribed h
  rw [← hg] at hstill hqueue
  -- From the end of the subscription on the queue is out of reach.
  have hgone : (g.unsubscribe l).feed.Departed l := Feed.departed_unsubscribe hstill
  have hleft : (g.unsubscribe l).Linked := (linked_run _ : g.Linked).perform (.unsubscribe l)
  obtain ⟨hnothing, hnone⟩ := hleft.departed_along hgone later
  refine ⟨by rw [hqueue, hempty, List.nil_append], ?_, hnone, ?_⟩
  · rw [hg]
    exact hlinked.replay_along after
  · -- The whole history is what came before, followed by the later calls.
    have hend : run (before ++ .subscribe :: after ++ .unsubscribe l :: later) =
        later.foldl Graph.perform (g.unsubscribe l) := by
      simp [g, run, perform]
    rw [hend]
    exact hnothing

/-- A vertex with a loop goes, after a second subscriber has come. -/
theorem announcements_run_loop :
    let before : List (Operation Nat Unit) := [.addEdge 1 2 ()]
    let after : List (Operation Nat Unit) :=
      [.addEdge 1 1 (), .drain ⟨1⟩, .subscribe, .addEdge 1 1 (), .removeVertex 1]
    let later : List (Operation Nat Unit) := [.addVertex 3, .subscribe, .drain ⟨1⟩]
    let start := run (before ++ [.subscribe])
    let g := run (before ++ .subscribe :: after)
    (∀ op ∈ after, op ≠ .unsubscribe (run before).subscribe.1) ∧
    start.receivedAlong ⟨1⟩ after = [.addEdge 1 1] ∧
    start.receivedAlong ⟨1⟩ after ++ g.feed.queue ⟨1⟩ =
      [.addEdge 1 1, .removeEdge 1 2, .removeEdge 1 1, .removeVertex 1] ∧
    start.skeleton.replay [.addEdge 1 1, .removeEdge 1 2, .removeEdge 1 1, .removeVertex 1] =
      some g.skeleton ∧
    g.vertices = [2] ∧ (g.unsubscribe ⟨1⟩).receivedAlong ⟨1⟩ later = [] := by
  intro before after later start g
  have hstays : ∀ op ∈ after, op ≠ .unsubscribe (run before).subscribe.1 := by decide
  -- The second loop is no new edge, and the removal announces the first only once.
  have hannounced : start.announcedAlong after =
      [.addEdge 1 1, .removeEdge 1 2, .removeEdge 1 1, .removeVertex 1] := by decide
  obtain ⟨hqueue, hreplay, hnothing, -⟩ := announcements_run before after later hstays
  refine ⟨hstays, by decide, ?_, ?_, by decide, hnothing⟩
  · rw [← hannounced]
    exact hqueue
  · rw [← hannounced]
    exact hreplay

end Graph

end PlanarSketch
