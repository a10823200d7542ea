/-
Merges compute configurations that fit.

A configuration fits a cluster if it has a position for just the points of the
cluster.  A merge is wired by hand: the places of its inputs and the names of
its points are fixed when a rule finds it, and used on every evaluation later.
The wiring of each rule is right: on configurations that fit the inputs the
computation succeeds, and its results fit the output.

* `Configuration.Fits`: a configuration has the points of a cluster;
* `Yields`: a computation succeeds with a result that has a property;
* `MergeGeometry.Poses`: the wiring of a merge is right, and `poses_keep`,
  `poses_rigid`, `poses_scaled`, `poses_triangle`, `poses_hedgehog`;
* `Finding.poses`: the rules wire their merges rightly, rule by rule;
* `Reachable.posed`: after any operation all merges are wired rightly.
-/
import PlanarSketch.Proofs.RootFrame

namespace PlanarSketch

/-! ### Computations with a result -/

section Yields

variable {ε α β : Type} {P P' : α → Prop} {Q : β → Prop} {x : Except ε α} {f : α → Except ε β}

/-- The computation succeeds, and its result has the property. -/
def Yields (x : Except ε α) (P : α → Prop) : Prop := ∃ a, x = .ok a ∧ P a

theorem Yields.imp (h : Yields x P) (hp : ∀ a, P a → P' a) : Yields x P' := by
  obtain ⟨a, hx, ha⟩ := h
  exact ⟨a, hx, hp a ha⟩

theorem Yields.bind (h : Yields x P) (hf : ∀ a, P a → Yields (f a) Q) : Yields (x >>= f) Q := by
  obtain ⟨a, rfl, ha⟩ := h
  exact hf a ha

theorem Yields.mapM {R : α → β → Prop} {l : List α} (h : ∀ a ∈ l, Yields (f a) (R a)) :
    Yields (l.mapM f) (List.Forall₂ R l) := by
  induction l with
  | nil => exact ⟨[], rfl, .nil⟩
  | cons a rest ih =>
    rw [List.mapM_cons]
    refine (h a List.mem_cons_self).bind fun b hb => ?_
    refine (ih fun a' ha' => h a' (List.mem_cons_of_mem _ ha')).bind fun bs hbs => ?_
    exact ⟨b :: bs, rfl, .cons hb hbs⟩

end Yields

/-! ### The points of a configuration -/

namespace OrderedMap

variable {α β : Type} [DecidableEq α] {m : OrderedMap α β} {j k : α} {v : β}

theorem mem_keys_insertNew : j ∈ (m.insertNew k v).keys ↔ j ∈ m.keys ∨ j = k := by
  rw [keys_insertNew]
  split <;> rename_i h
  · refine ⟨.inl, ?_⟩
    rintro (hj | rfl)
    · exact hj
    · exact h
  · rw [List.mem_append, List.mem_singleton]

theorem mem_keys_foldl_insert {l : List (α × β)} :
    j ∈ (l.foldl (fun m e => m.insert e.1 e.2) m).keys ↔ j ∈ m.keys ∨ j ∈ l.map Prod.fst := by
  induction l generalizing m with
  | nil => simp
  | cons e rest ih =>
    rw [List.foldl_cons, ih, mem_keys_insert, List.map_cons, List.mem_cons,
      or_comm (b := j ∈ m.keys), or_assoc]

theorem mem_keys_ofList {l : List (α × β)} : j ∈ (ofList l).keys ↔ j ∈ l.map Prod.fst := by
  rw [ofList, mem_keys_foldl_insert, keys_empty]
  simp

end OrderedMap

namespace Configuration

variable {a b : Configuration} {c : Cluster} {v : PointName}

/-- The configuration has positions for just the points of the cluster. -/
def Fits (conf : Configuration) (c : Cluster) : Prop := ∀ v, v ∈ conf.names ↔ v ∈ c

theorem fits_iff : a.Fits c ↔ NameSet.ofList a.names = c.points := by
  constructor
  · intro h
    refine NameSet.ext_mem fun v => ?_
    rw [NameSet.mem_ofList, h v, Cluster.mem_points]
  · intro h v
    rw [← Cluster.mem_points, ← h, NameSet.mem_ofList]

instance (conf : Configuration) (c : Cluster) : Decidable (conf.Fits c) :=
  decidable_of_iff _ fits_iff.symm

theorem Fits.exists_position (h : a.Fits c) (hv : v ∈ c) : ∃ p, a.position? v = some p := by
  rw [← Option.isSome_iff_exists, position?, OrderedMap.isSome_find?, OrderedMap.contains_iff]
  exact (h v).2 hv

theorem mem_names_ofList {l : List (PointName × Vec)} :
    v ∈ (ofList l).names ↔ v ∈ l.map Prod.fst :=
  OrderedMap.mem_keys_ofList

theorem mem_names_uniteAlong (f : Frame) :
    v ∈ (uniteAlong f a b).names ↔ v ∈ a.names ∨ v ∈ b.names := by
  show v ∈ (b.points.entries.foldl (fun m e => m.insertNew e.1 (f.apply e.2)) a.points).keys ↔
    v ∈ a.points.keys ∨ v ∈ b.points.entries.map Prod.fst
  generalize a.points = m
  induction b.points.entries generalizing m with
  | nil => simp
  | cons e rest ih =>
    rw [List.foldl_cons, ih, OrderedMap.mem_keys_insertNew, List.map_cons, List.mem_cons, or_assoc]

theorem mem_names_merge : v ∈ (a.merge b).names ↔ v ∈ a.names ∨ v ∈ b.names :=
  mem_names_uniteAlong _

theorem mem_names_mergeScaled : v ∈ (a.mergeScaled b).names ↔ v ∈ a.names ∨ v ∈ b.names :=
  mem_names_uniteAlong _

/-- A way to unite two configurations that takes the points of both. -/
def TakesBoth (combine : Configuration → Configuration → Configuration) : Prop :=
  ∀ a b v, v ∈ (combine a b).names ↔ v ∈ a.names ∨ v ∈ b.names

theorem TakesBoth.mem_names_foldl {combine : Configuration → Configuration → Configuration}
    (h : TakesBoth combine) {l : List Configuration} :
    v ∈ (l.foldl combine a).names ↔ ∃ b ∈ a :: l, v ∈ b.names := by
  induction l generalizing a with
  | nil => simp
  | cons b rest ih =>
    rw [List.foldl_cons, ih]
    simp only [List.exists_mem_cons_iff, h a b v, or_assoc]

end Configuration

/-! ### Triangles -/

namespace TriangleData

/-- The three points of a triangle. -/
def corners : TriangleData → List PointName
  | .sides p q r _ _ _ => [p, q, r]
  | .sidesAndAngle a b c _ _ _ => [a, b, c]
  | .angleAndSides a b c _ _ _ => [a, b, c]
  | .angles a b c _ _ => [a, b, c]

/-- The points that are looked up in the input at each place. -/
def reads : TriangleData → List (Nat × List PointName)
  | .sides p q r pq qr rp => [(pq, [p, q]), (qr, [q, r]), (rp, [r, p])]
  | .sidesAndAngle a b c ab hog bc => [(ab, [a, b]), (hog, [a, b, c]), (bc, [b, c])]
  | .angleAndSides a b c ab hog bc => [(hog, [b, a, c]), (ab, [a, b]), (bc, [b, c])]
  | .angles a b c hogA hogB => [(hogA, [b, a, c]), (hogB, [a, b, c])]

/-- The measures of the triangle can be taken in configurations of these clusters. -/
def Measurable (data : TriangleData) (cs : List Cluster) : Prop :=
  ∀ e ∈ data.reads, ∃ c, cs[e.1]? = some c ∧ ∀ v ∈ e.2, v ∈ c

end TriangleData

namespace Construction

variable {a b c v : PointName} {x y z : Float} {conf : Configuration}

theorem mem_names_threeSides (h : conf ∈ threeSides a b c x y z) :
    v ∈ conf.names ↔ v ∈ [a, b, c] := by
  unfold threeSides at h
  split at h
  · split at h
    · rw [List.mem_singleton.1 h]
      exact Configuration.mem_names_ofList
    · cases h
  · obtain ⟨p, -, rfl⟩ := List.mem_map.1 h
    exact Configuration.mem_names_ofList

theorem mem_names_sidesAndAngle (h : conf ∈ sidesAndAngle a b c x y z) :
    v ∈ conf.names ↔ v ∈ [a, b, c] := by
  rw [List.mem_singleton.1 h]
  exact Configuration.mem_names_ofList

theorem mem_names_angleAndSides (h : conf ∈ angleAndSides a b c x y z) :
    v ∈ conf.names ↔ v ∈ [a, b, c] := by
  obtain ⟨p, -, rfl⟩ := List.mem_map.1 h
  exact Configuration.mem_names_ofList

theorem mem_names_angles (h : conf ∈ angles a b c x y z) : v ∈ conf.names ↔ v ∈ [a, b, c] := by
  unfold angles at h
  split at h
  · rw [List.mem_singleton.1 h]
    exact Configuration.mem_names_ofList
  · obtain ⟨p, -, rfl⟩ := List.mem_map.1 h
    exact Configuration.mem_names_ofList

end Construction

/-! ### The wiring of a merge -/

namespace MergeGeometry

variable {rule : MergeRule} {args : List Configuration} {cs : List Cluster} {a : Configuration}
  {c out : Cluster} {i : Nat}

/-- On configurations that fit the inputs the computation succeeds, and its results fit the
output. -/
def Poses (geometry : MergeGeometry) (rule : MergeRule) (cs : List Cluster) (out : Cluster) :
    Prop :=
  ∀ args, List.Forall₂ Configuration.Fits args cs →
    Yields (geometry.evaluate rule args) fun outs => ∀ conf ∈ outs, conf.Fits out

theorem yields_input (h : List.Forall₂ Configuration.Fits args cs) (hc : cs[i]? = some c) :
    Yields (input rule args i) fun a => args[i]? = some a ∧ a.Fits c := by
  obtain ⟨hi, rfl⟩ := List.getElem?_eq_some_iff.1 hc
  have hi' : i < args.length := h.length_eq ▸ hi
  refine ⟨args[i], ?_, List.getElem?_eq_getElem hi', h.get hi' hi⟩
  unfold input
  rw [List.getElem?_eq_getElem hi']

theorem yields_position {v : PointName} (h : a.Fits c) (hv : v ∈ c) :
    Yields (position rule a v) fun p => a.position? v = some p := by
  obtain ⟨p, hp⟩ := h.exists_position hv
  refine ⟨p, ?_, hp⟩
  unfold position
  rw [hp]

theorem yields_distance {p q : PointName} (h : a.Fits c) (hpq : ∀ v ∈ [p, q], v ∈ c) :
    Yields (distance rule a p q) fun _ => True := by
  refine (yields_position h (hpq q (by simp))).bind fun _ _ => ?_
  refine (yields_position h (hpq p (by simp))).bind fun _ _ => ?_
  exact ⟨_, rfl, trivial⟩

theorem yields_angle {p q r : PointName} (h : a.Fits c) (hpqr : ∀ v ∈ [p, q, r], v ∈ c) :
    Yields (angle rule a p q r) fun _ => True := by
  refine (yields_position h (hpqr p (by simp))).bind fun _ _ => ?_
  refine (yields_position h (hpqr q (by simp))).bind fun _ _ => ?_
  refine (yields_position h (hpqr r (by simp))).bind fun _ _ => ?_
  exact ⟨_, rfl, trivial⟩

/-- A computation goes on with what is measured in the input at a place, if that can be measured
wherever its points have positions. -/
theorem yields_of_measure {β : Type} {measure : Configuration → Except MethodError Float}
    {points : List PointName} {next : Float → Except MethodError β} {Q : β → Prop}
    {data : TriangleData}
    (hmeasure : ∀ {a c}, a.Fits c → (∀ v ∈ points, v ∈ c) → Yields (measure a) fun _ => True)
    (h : List.Forall₂ Configuration.Fits args cs) (hm : data.Measurable cs)
    (hread : (i, points) ∈ data.reads) (hnext : ∀ x, Yields (next x) Q) :
    Yields (do let a ← input rule args i; let x ← measure a; next x) Q := by
  obtain ⟨c, hc, hpoints⟩ := hm _ hread
  refine (yields_input h hc).bind fun a ha => ?_
  exact (hmeasure ha.2 hpoints).bind fun x _ => hnext x

/-- A triangle whose measures can be taken is constructed, with its three corners. -/
theorem yields_solveTriangle {data : TriangleData} (h : List.Forall₂ Configuration.Fits args cs)
    (hm : data.Measurable cs) : Yields (solveTriangle rule args data) fun sols =>
      ∀ conf ∈ sols, ∀ v, v ∈ conf.names ↔ v ∈ data.corners := by
  -- Each kind of triangle takes its measures one after the other, and then construction cannot
  -- fail.
  cases data with
  | sides p q r pq qr rp =>
    refine yields_of_measure yields_distance h hm (by simp [TriangleData.reads]) fun _ => ?_
    refine yields_of_measure yields_distance h hm (by simp [TriangleData.reads]) fun _ => ?_
    refine yields_of_measure yields_distance h hm (by simp [TriangleData.reads]) fun _ => ?_
    exact ⟨_, rfl, fun _ hconf _ => Construction.mem_names_threeSides hconf⟩
  | sidesAndAngle a b c ab hog bc =>
    refine yields_of_measure yields_distance h hm (by simp [TriangleData.reads]) fun _ => ?_
    refine yields_of_measure yields_angle h hm (by simp [TriangleData.reads]) fun _ => ?_
    refine yields_of_measure yields_distance h hm (by simp [TriangleData.reads]) fun _ => ?_
    exact ⟨_, rfl, fun _ hconf _ => Construction.mem_names_sidesAndAngle hconf⟩
  | angleAndSides a b c ab hog bc =>
    refine yields_of_measure yields_angle h hm (by simp [TriangleData.reads]) fun _ => ?_
    refine yields_of_measure yields_distance h hm (by simp [TriangleData.reads]) fun _ => ?_
    refine yields_of_measure yields_distance h hm (by simp [TriangleData.reads]) fun _ => ?_
    exact ⟨_, rfl, fun _ hconf _ => Construction.mem_names_angleAndSides hconf⟩
  | angles a b c hogA hogB =>
    refine yields_of_measure yields_angle h hm (by simp [TriangleData.reads]) fun _ => ?_
    refine yields_of_measure yields_angle h hm (by simp [TriangleData.reads]) fun _ => ?_
    exact ⟨_, rfl, fun _ hconf _ => Construction.mem_names_angles hconf⟩

/-- The input at a place, unchanged, fits a cluster with the same points. -/
theorem poses_keep (hc : cs[i]? = some c) (hout : ∀ v, v ∈ out ↔ v ∈ c) :
    (keep i).Poses rule cs out := by
  intro args h
  refine (yields_input h hc).bind fun a ha => ⟨[a], rfl, fun conf hconf v => ?_⟩
  rw [List.mem_singleton.1 hconf, hout v, ha.2 v]

/-- What the inputs have together. -/
theorem exists_mem_names_iff (h : List.Forall₂ Configuration.Fits args cs) {v : PointName} :
    (∃ a ∈ args, v ∈ a.names) ↔ ∃ c ∈ cs, v ∈ c := by
  induction h with
  | nil => simp
  | cons ha _ ih => simp only [List.exists_mem_cons_iff, ih, ha v]

/-- The union of all inputs has all their points, whichever it starts from. -/
theorem yields_unite {combine : Configuration → Configuration → Configuration}
    (hcombine : Configuration.TakesBoth combine) (h : List.Forall₂ Configuration.Fits args cs)
    (hi : i < cs.length) (hout : ∀ v, v ∈ out ↔ ∃ c ∈ cs, v ∈ c) :
    Yields (unite combine rule args i) fun conf => conf.Fits out := by
  refine (yields_input h (List.getElem?_eq_getElem hi)).bind fun a ha => ⟨_, rfl, fun v => ?_⟩
  obtain ⟨hlt, rfl⟩ := List.getElem?_eq_some_iff.1 ha.1
  have hperm : (args[i] :: args.eraseIdx i).Perm args := List.getElem_cons_eraseIdx_perm hlt
  rw [hcombine.mem_names_foldl, hout v, ← exists_mem_names_iff h]
  simp only [hperm.mem_iff]

theorem poses_rigid (hi : i < cs.length) (hout : ∀ v, v ∈ out ↔ ∃ c ∈ cs, v ∈ c) :
    (rigid i).Poses rule cs out := by
  intro args h
  refine (yields_unite (fun _ _ _ => Configuration.mem_names_merge) h hi hout).bind fun a ha => ?_
  exact ⟨[a], rfl, fun conf hconf => List.mem_singleton.1 hconf ▸ ha⟩

theorem poses_scaled (hi : i < cs.length) (hout : ∀ v, v ∈ out ↔ ∃ c ∈ cs, v ∈ c) :
    (scaled i).Poses rule cs out := by
  intro args h
  refine (yields_unite (fun _ _ _ => Configuration.mem_names_mergeScaled) h hi hout).bind
    fun a ha => ?_
  exact ⟨[a], rfl, fun conf hconf => List.mem_singleton.1 hconf ▸ ha⟩

/-- Some cluster at one of the places has the point. -/
def HeldAt (cs : List Cluster) (places : List Nat) (v : PointName) : Prop :=
  ∃ i ∈ places, ∃ c, cs[i]? = some c ∧ v ∈ c

theorem yields_onBase {base : Option Nat} {solution : Configuration}
    (h : List.Forall₂ Configuration.Fits args cs) (hb : ∀ b ∈ base, b < cs.length) :
    Yields (onBase rule args base solution) fun placed =>
      ∀ v, v ∈ placed.names ↔ v ∈ solution.names ∨ HeldAt cs base.toList v := by
  cases base with
  | none => exact ⟨solution, rfl, fun v => by simp [HeldAt]⟩
  | some b =>
    have hc := List.getElem?_eq_getElem (hb b rfl)
    refine (yields_input h hc).bind fun a ha => ⟨_, rfl, fun v => ?_⟩
    rw [Configuration.mem_names_merge, ha.2 v, or_comm]
    simp [HeldAt, hc]

theorem yields_attach {places : List Nat} (h : List.Forall₂ Configuration.Fits args cs)
    (hp : ∀ i ∈ places, i < cs.length) : Yields (attach rule args a places) fun conf =>
      ∀ v, v ∈ conf.names ↔ v ∈ a.names ∨ HeldAt cs places v := by
  induction places generalizing a with
  | nil => exact ⟨a, rfl, fun v => by simp [HeldAt]⟩
  | cons i rest ih =>
    obtain ⟨c, hc⟩ : ∃ c, cs[i]? = some c := ⟨_, List.getElem?_eq_getElem (hp i List.mem_cons_self)⟩
    have hmerge : Yields (do return a.merge (← input rule args i)) fun a' =>
        ∀ v, v ∈ a'.names ↔ v ∈ a.names ∨ v ∈ c :=
      (yields_input h hc).bind fun e he => ⟨_, rfl, fun v => by
        rw [Configuration.mem_names_merge, he.2 v]⟩
    show Yields ((do return a.merge (← input rule args i)) >>= fun a' => attach rule args a' rest) _
    refine hmerge.bind fun a' ha' => ?_
    refine (ih fun j hj => hp j (List.mem_cons_of_mem _ hj)).imp fun conf hnames v => ?_
    rw [hnames v, ha' v, or_assoc]
    simp [HeldAt, hc]

/-- A triangle with the base and the further inputs has all their points. -/
theorem poses_triangle {data : TriangleData} {base : Option Nat} {rigids : List Nat}
    (hm : data.Measurable cs) (hplaces : ∀ j ∈ base.toList ++ rigids, j < cs.length)
    (hout : ∀ v, v ∈ out ↔ v ∈ data.corners ∨ HeldAt cs (base.toList ++ rigids) v) :
    (triangle data base rigids).Poses rule cs out := by
  intro args h
  refine (yields_solveTriangle h hm).bind fun sols hsols => ?_
  have hone : ∀ sol ∈ sols, Yields (do
      let placed ← onBase rule args base sol
      attach rule args placed (rigids.filter fun i => some i ≠ base))
      fun conf => conf.Fits out := by
    intro sol hsol
    have hbase : ∀ b ∈ base, b < cs.length := fun b hb =>
      hplaces b (List.mem_append_left _ (Option.mem_toList.2 hb))
    have hrest : ∀ j ∈ rigids.filter (fun i => some i ≠ base), j < cs.length := fun j hj =>
      hplaces j (List.mem_append_right _ (List.mem_of_mem_filter hj))
    refine (yields_onBase h hbase).bind fun placed hplaced => ?_
    refine (yields_attach h hrest).imp fun conf hnames v => ?_
    rw [hnames v, hplaced v, hsols sol hsol v, hout v, or_assoc]
    refine or_congr_right ?_
    -- The base is left out of the further inputs since it is there already.
    constructor
    · rintro (⟨j, hj, hv⟩ | ⟨j, hj, hv⟩)
      · exact ⟨j, List.mem_append_left _ hj, hv⟩
      · exact ⟨j, List.mem_append_right _ (List.mem_of_mem_filter hj), hv⟩
    · rintro ⟨j, hj, hv⟩
      by_cases hb : some j = base
      · exact .inl ⟨j, Option.mem_toList.2 hb.symm, hv⟩
      · rcases List.mem_append.1 hj with hj | hj
        · exact absurd (Option.mem_toList.1 hj).symm hb
        · exact .inr ⟨j, List.mem_filter.2 ⟨hj, by simpa using hb⟩, hv⟩
  refine (Yields.mapM hone).imp fun outs hfit conf hconf => ?_
  obtain ⟨n, hn, rfl⟩ := List.mem_iff_getElem.1 hconf
  exact hfit.get (hfit.length_eq ▸ hn) hn

/-- The first few inputs, moved onto a triangle between them, have all their points. -/
theorem poses_triangle_range {data : TriangleData} {b k : Nat} (hm : data.Measurable cs)
    (hb : b < k) (hk : k ≤ cs.length)
    (hcorners : ∀ v ∈ data.corners, ∃ c ∈ cs.take k, v ∈ c)
    (hout : ∀ v, v ∈ out ↔ ∃ c ∈ cs.take k, v ∈ c) :
    (triangle data (some b) (List.range k)).Poses rule cs out := by
  have hlt : ∀ j ∈ (some b).toList ++ List.range k, j < k := by
    intro j hj
    rcases List.mem_append.1 hj with hj | hj
    · rw [Option.mem_toList.1 hj |> Option.some_inj.1] at hb
      exact hb
    · exact List.mem_range.1 hj
  -- What is held at the first `k` places is what the first `k` inputs have.
  have hheld : ∀ v, HeldAt cs ((some b).toList ++ List.range k) v ↔ ∃ c ∈ cs.take k, v ∈ c := by
    intro v
    constructor
    · rintro ⟨j, hj, c, hc, hv⟩
      refine ⟨c, List.mem_of_getElem? (i := j) ?_, hv⟩
      rw [List.getElem?_take_of_lt (hlt j hj), hc]
    · rintro ⟨c, hc, hv⟩
      obtain ⟨j, hj, rfl⟩ := List.mem_iff_getElem.1 hc
      rw [List.length_take] at hj
      refine ⟨j, List.mem_append_right _ (List.mem_range.2 (by omega)), _, ?_, hv⟩
      rw [List.getElem_take, List.getElem?_eq_getElem]
  refine poses_triangle hm (fun j hj => Nat.lt_of_lt_of_le (hlt j hj) hk) fun v => ?_
  rw [hheld v, hout v]
  exact ⟨.inr, fun h => h.elim (hcorners v) id⟩

/-- A hedgehog is derived from any cluster with its points. -/
theorem poses_hedgehog {centre : PointName} {arms : NameSet}
    (hsub : ∀ v ∈ Cluster.hedgehog centre arms, v ∈ c) :
    (hedgehog centre arms).Poses rule [c] (.hedgehog centre arms) := by
  intro args h
  refine (yields_input h rfl).bind fun a ha => ?_
  have hcentre : centre ∈ c := hsub centre (Cluster.mem_hedgehog.2 (.inl rfl))
  -- Every arm has a position, so its tip is found.
  have htips : Yields (solveHedgehog rule a centre arms) fun conf =>
      conf.Fits (.hedgehog centre arms) := by
    refine (yields_position ha.2 hcentre).bind fun p _ => ?_
    have hone : ∀ v ∈ arms.toList, Yields (do
        let q ← position rule a v
        return (v, unitArm p q)) fun tip => v = tip.1 := fun v hv =>
      (yields_position ha.2 (hsub v (Cluster.mem_hedgehog.2 (.inr hv)))).bind fun q _ =>
        ⟨_, rfl, rfl⟩
    refine (Yields.mapM hone).bind fun tips htips => ⟨_, rfl, fun v => ?_⟩
    have hnames : tips.map Prod.fst = arms.toList := by
      rw [← List.forall₂_eq_eq_eq, List.forall₂_map_left_iff]
      exact htips.flip.imp fun _ _ he => he.symm
    show v ∈ (Configuration.ofList ((centre, p) :: tips)).names ↔ _
    rw [Configuration.mem_names_ofList, List.map_cons, hnames, List.mem_cons, Cluster.mem_hedgehog]
    rfl
  exact htips.bind fun conf hconf =>
    ⟨[conf], rfl, fun conf' hmem => List.mem_singleton.1 hmem ▸ hconf⟩

end MergeGeometry

/-! ### The rules -/

/-- The inputs of the plan stand for clusters for which its merge is wired rightly. -/
def Plan.Poses (plan : Plan) (d : Decomposition) : Prop :=
  ∃ cs, List.Forall₂ d.Offers plan.inputs cs ∧ plan.geometry.Poses plan.rule cs plan.output

namespace Decomposition

variable {d d' : Decomposition} {plan : Plan}

theorem rootPlace_lt (d : Decomposition) (p : Placed) (ps : List Placed) :
    d.rootPlace (p :: ps) < (p :: ps).length := by
  unfold rootPlace
  cases h : (p :: ps).findIdx? fun p => d.holdsRoot p.id && p.cluster.isRigid with
  | none => exact Nat.zero_lt_succ _
  | some i =>
    obtain ⟨hlt, -⟩ := List.findIdx?_eq_some_iff_getElem.1 h
    exact hlt

theorem offers_pair {p q : Placed} (hp : d.OnTop p) (hq : d.OnTop q) :
    List.Forall₂ d.Offers [.existing p.id, .existing q.id] [p.cluster, q.cluster] :=
  .cons (.existing hp) (.cons (.existing hq) .nil)

/-- The point lies in the rigid, so nothing is lost if the rigid is kept alone. -/
theorem Grounded.joinPoint_poses (hg : d.Grounded) {rigid point : Placed} (hr : d.OnTop rigid)
    (hp : d.OnTop point) (hrr : rigid.cluster.isRigid = true) (hpr : point.cluster.isRigid = true)
    (hone : point.cluster.size = 1) (hv : ∃ v, v ∈ point.cluster ∧ v ∈ rigid.cluster) :
    (d.joinPoint rigid point).Poses d := by
  have hinside : ∀ v, v ∈ point.cluster → v ∈ rigid.cluster := fun v =>
    (weaker_of_lone_point hpr hrr hone hv).mem (hg.valid _ _ hp.2)
  refine ⟨_, offers_pair hr hp, ?_⟩
  show MergeGeometry.Poses (if _ then _ else _) _ _ _
  split
  · refine MergeGeometry.poses_rigid (by simp) fun v => ?_
    simp only [List.exists_mem_cons_iff, List.not_mem_nil, false_and, exists_false, or_false]
    exact ⟨.inl, fun h => h.elim id (hinside v)⟩
  · exact MergeGeometry.poses_keep rfl fun _ => Iff.rfl

/-- Two hedgehogs at one centre, scaled to the same unit. -/
theorem joinHedgehogs_poses {centre : PointName} {i j : PlanInput} {arms arms' : NameSet}
    (hi : d.Offers i (.hedgehog centre arms)) (hj : d.Offers j (.hedgehog centre arms')) :
    (joinHedgehogs centre i j arms arms').Poses d := by
  refine ⟨_, .cons hi (.cons hj .nil), MergeGeometry.poses_scaled (by simp) fun v => ?_⟩
  simp only [joinHedgehogs, Cluster.mem_hedgehog, NameSet.mem_union, List.exists_mem_cons_iff,
    List.not_mem_nil, false_and, exists_false, or_false]
  grind

/-- Two rigids on a triangle whose angle the third input gives. -/
theorem joinByAngle_poses {r n : Placed} {i : PlanInput} {c : Cluster} {rule : MergeRule}
    {data : TriangleData} {qs : List SelectionConstraint} (hr : d.OnTop r) (hn : d.OnTop n)
    (hi : d.Offers i c) (hm : data.Measurable [r.cluster, n.cluster, c])
    (hcorners : ∀ v ∈ data.corners, v ∈ r.cluster ∨ v ∈ n.cluster) :
    (d.joinByAngle rule r n i data qs).Poses d := by
  refine ⟨_, .cons (.existing hr) (.cons (.existing hn) (.cons hi .nil)), ?_⟩
  refine MergeGeometry.poses_triangle_range (k := 2) hm (d.rootPlace_lt r [n]) (by simp) ?_ ?_
  · intro v hv
    simpa using hcorners v hv
  · intro v
    simp [joinByAngle]

/-- Each of the three points lies in two of the rigids, so each rigid has one side of the
triangle. -/
theorem threeRigids_poses {me first second : Placed} (hm : d.OnTop me) (h₁ : d.OnTop first)
    (h₂ : d.OnTop second) (h : d.threeRigids? me first second = some plan) : plan.Poses d := by
  obtain ⟨-, -, -, p, q, r, hp, hq, hr, -, -, -, rfl⟩ := threeRigids?_eq_some h
  obtain ⟨⟨hpm, hpf⟩, -⟩ := only?_shared hp
  obtain ⟨⟨hqf, hqs⟩, -⟩ := only?_shared hq
  obtain ⟨⟨hrs, hrm⟩, -⟩ := only?_shared hr
  refine ⟨_, .cons (.existing hm) (.cons (.existing h₁) (.cons (.existing h₂) .nil)), ?_⟩
  refine MergeGeometry.poses_triangle_range (k := 3) ?_ (d.rootPlace_lt me [first, second])
    (by simp) ?_ fun v => by simp [or_assoc]
  · simp [TriangleData.Measurable, TriangleData.reads, *]
  · simp [TriangleData.corners, *]

/-- A hedgehog between two rigids sees a point of each from the shared one. -/
theorem Grounded.angleBetween_poses (hg : d.Grounded) {r n : Placed} {h : PlacedHedgehog}
    {a c : PointName} (hr : d.OnTop r) (hn : d.OnTop n) (hh : d.OnTop h.placed)
    (hb : (r.cluster.shared n.cluster).only? = some h.centre)
    (ha : armTo? h.arms r.cluster n.cluster = some a)
    (hc : armTo? h.arms n.cluster r.cluster = some c) :
    (d.joinByAngle .rigidsAngleBetween r n (withArms h (.ofList [a, c]))
      (.sidesAndAngle a h.centre c 0 2 1) []).Poses d := by
  obtain ⟨ha, har, han⟩ := armTo?_eq_some ha
  obtain ⟨hc, hcn, -⟩ := armTo?_eq_some hc
  obtain ⟨⟨hbr, hbn⟩, -⟩ := only?_shared hb
  have hac : a ≠ c := fun e => han (e ▸ hcn)
  refine joinByAngle_poses hr hn (hg.offers_withArms_pair hh ha hc hac) ?_ ?_
  · simp [TriangleData.Measurable, TriangleData.reads, *]
  · simp [TriangleData.corners, *]

/-- A hedgehog beside two rigids sees the shared point and a point of the rigid that it is not
centred in, at whichever places the two stand. -/
theorem Grounded.angleBeside_poses (hg : d.Grounded) {r n : Placed} {h : PlacedHedgehog}
    {b c : PointName} {near far : Cluster} {i j : Nat} {qs : List SelectionConstraint}
    (hr : d.OnTop r) (hn : d.OnTop n) (hh : d.OnTop h.placed)
    (hb : (r.cluster.shared n.cluster).only? = some b)
    (hsides : near = r.cluster ∧ far = n.cluster ∧ i = 0 ∧ j = 1 ∨
      near = n.cluster ∧ far = r.cluster ∧ i = 1 ∧ j = 0)
    (hcentre : h.centre ∈ near) (hba : b ∈ h.arms) (hc : armTo? h.arms far near = some c) :
    (d.joinByAngle .rigidsAngleBeside r n (withArms h (.ofList [b, c]))
      (.angleAndSides h.centre b c i 2 j) qs).Poses d := by
  obtain ⟨harm, hcf, hcn⟩ := armTo?_eq_some hc
  obtain ⟨⟨hbr, hbn⟩, -⟩ := only?_shared hb
  have hbnear : b ∈ near := by
    rcases hsides with ⟨rfl, -⟩ | ⟨rfl, -⟩
    · exact hbr
    · exact hbn
  have hbc : b ≠ c := fun e => hcn (e ▸ hbnear)
  refine joinByAngle_poses hr hn (hg.offers_withArms_pair hh hba harm hbc) ?_ ?_
  · rcases hsides with ⟨rfl, rfl, rfl, rfl⟩ | ⟨rfl, rfl, rfl, rfl⟩
    · simp [TriangleData.Measurable, TriangleData.reads, *]
    · simp [TriangleData.Measurable, TriangleData.reads, *]
  · rcases hsides with ⟨rfl, rfl, -⟩ | ⟨rfl, rfl, -⟩
    · simp [TriangleData.corners, *]
    · simp [TriangleData.corners, *]

/-- Both hedgehogs see all three points of the triangle. -/
theorem Grounded.triangle_poses (hg : d.Grounded) {me other : PlacedHedgehog} {c : PointName}
    (hm : d.OnTop me.placed) (ho : d.OnTop other.placed) (hb : other.centre ∈ me.arms)
    (ha : me.centre ∈ other.arms) (hc : c ∈ me.arms ∩ other.arms)
    (h : d.triangleOver? me other c = some plan) : plan.Poses d := by
  obtain ⟨-, rfl⟩ := triangleOver?_eq_some h
  obtain ⟨hcm, hco⟩ := NameSet.mem_inter.1 hc
  have hoc : other.centre ≠ c := fun e =>
    (Cluster.valid_hedgehog_iff.1 (hg.valid _ _ ho.2)).1 (e ▸ hco)
  have hmc : me.centre ≠ c := fun e =>
    (Cluster.valid_hedgehog_iff.1 (hg.valid _ _ hm.2)).1 (e ▸ hcm)
  refine ⟨_, .cons (hg.offers_withArms_pair hm hb hcm hoc)
    (.cons (hg.offers_withArms_pair ho ha hco hmc) .nil), ?_⟩
  refine MergeGeometry.poses_triangle ?_ (by simp) fun v => ?_
  · simp [TriangleData.Measurable, TriangleData.reads]
  · simp [TriangleData.corners, MergeGeometry.HeldAt]

/-- Every rule wires its merge rightly. -/
theorem Finding.poses {ps : List ClusterId} (hf : Finding d ps plan) (hg : d.Grounded) :
    plan.Poses d := by
  -- Each rule has its own wiring: the places come from the order of its inputs, the points from
  -- what they share.
  cases hf with
  | absorb hc hh h =>
    obtain ⟨-, -, -, -, rfl⟩ := absorb?_eq_some h
    exact ⟨_, offers_pair hc hh, MergeGeometry.poses_keep rfl fun _ => Iff.rfl⟩
  | balloonRigid hb hr h =>
    obtain ⟨-, -, -, rfl⟩ := balloonRigid?_eq_some h
    exact ⟨_, offers_pair hb hr, MergeGeometry.poses_scaled (by simp) fun v => by simp⟩
  | pointRigid hm ho hne hr hv h =>
    obtain ⟨hor, ⟨hone, rfl⟩ | ⟨-, hone, rfl⟩⟩ := pointRigid?_eq_some h
    · exact hg.joinPoint_poses ho hm hor hr hone hv
    · obtain ⟨v, hvm, hvo⟩ := hv
      exact hg.joinPoint_poses hm ho hr hor hone ⟨v, hvo, hvm⟩
  | @rigidRigid me other _ hm ho hne hr h =>
    obtain ⟨-, -, rfl⟩ := rigidRigid?_eq_some h
    exact ⟨_, offers_pair hm ho, MergeGeometry.poses_rigid (d.rootPlace_lt me [other])
      fun v => by simp⟩
  | balloons hm ho hne hb h =>
    obtain ⟨-, -, rfl⟩ := balloons?_eq_some h
    exact ⟨_, offers_pair hm ho, MergeGeometry.poses_scaled (by simp) fun v => by simp⟩
  | hedgehogs hm ho hne h =>
    obtain ⟨arms, -, hc, -, -, rfl⟩ := hedgehogs?_eq_some h
    have hother := Offers.existing ho
    rw [hc] at hother
    exact joinHedgehogs_poses (.existing hm) hother
  | threeRigids hm h₁ h₂ _ _ _ h => exact threeRigids_poses hm h₁ h₂ h
  | angleBetween hr hn hh _ _ _ hb hcentre ha hc =>
    subst hcentre
    exact hg.angleBetween_poses hr hn hh hb ha hc
  | angleBeside hr hn hh _ _ _ hb hsides hcentre _ hba hc =>
    exact hg.angleBeside_poses hr hn hh hb hsides hcentre hba hc
  | extend hs hh hk hc h =>
    obtain ⟨h2, -, -, -, rfl⟩ := extendHedgehog?_eq_some h
    exact joinHedgehogs_poses (.existing hh) (offers_at_centre hs hk hc h2)
  | triangle hm ho hb ha hc h => exact hg.triangle_poses hm ho hb ha hc h

end Decomposition

/-! ### All merges -/

/-- The merge is wired rightly for the clusters under its keys. -/
def Merge.Posed (m : Merge) (d : Decomposition) : Prop :=
  ∃ cs out, List.Forall₂ (fun id c => d.cluster? id = some c) m.inputs cs ∧
    d.cluster? m.output = some out ∧ m.geometry.Poses m.rule cs out

theorem Merge.Posed.transfer {m : Merge} {d d' : Decomposition} (h : m.Posed d)
    (hs : m.StandsIn d')
    (hc : ∀ id c c', d.cluster? id = some c → d'.cluster? id = some c' → c = c') : m.Posed d' := by
  have hkeep : ∀ id c, d'.Live id → d.cluster? id = some c → d'.cluster? id = some c := by
    intro id c hl hcl
    obtain ⟨c', hcl'⟩ := Decomposition.live_iff.1 hl
    rw [hcl', hc id c c' hcl hcl']
  obtain ⟨cs, out, hin, hout, hp⟩ := h
  refine ⟨cs, out, ?_, hkeep _ _ hs.output hout, hp⟩
  refine List.forall₂_iff_get.2 ⟨hin.length_eq, fun n hn hn' => ?_⟩
  exact hkeep _ _ (hs.inputs _ (List.get_mem _ _)) (hin.get hn hn')

namespace Decomposition

variable {d d' : Decomposition} {plan : Plan}

/-- The inputs of a plan stand for the clusters that they offered once all of them are provided. -/
theorem Grounded.forall₂_provideAll (hg : d.Grounded) {inputs : List PlanInput} {cs : List Cluster}
    (hin : List.Forall₂ d.Offers inputs cs) :
    List.Forall₂ (fun id c => (d.provideAll inputs).2.cluster? id = some c)
      (d.provideAll inputs).1 cs := by
  induction inputs generalizing d cs with
  | nil =>
    cases hin
    exact .nil
  | cons i rest ih =>
    obtain ⟨c, cs', hi, hrest, rfl⟩ := List.forall₂_cons_left_iff.1 hin
    obtain ⟨new, hone⟩ := provided_provide hg hi
    obtain ⟨id, hid, hc⟩ := hone.given i (List.mem_singleton_self _) c hi
    rw [List.mem_singleton.1 hid] at hc
    rw [provideAll_cons]
    -- What one input was provided with stays while the others are provided.
    exact .cons ((partOf_provideAll rest _).cluster?_eq_some hc)
      (ih hone.grounded (hrest.imp fun _ _ ho => ho.mono hone.onTop_mono))

/-- Every merge is wired rightly. -/
def Posed (d : Decomposition) : Prop := ∀ k m, d.merges.find? k = some m → m.Posed d

theorem Posed.transfer (h : d.Posed) (hg : d'.Grounded)
    (hm : ∀ k m, d'.merges.find? k = some m → d.merges.find? k = some m)
    (hc : ∀ id c c', d.cluster? id = some c → d'.cluster? id = some c' → c = c') : d'.Posed :=
  fun k m hk => (h k m (hm k m hk)).transfer (hg.merge k m hk) hc

/-- A new merge that is wired rightly for its inputs. -/
theorem Posed.addMerge {draft : MergeDraft} {cs : List Cluster} (h : d.Posed)
    (hin : List.Forall₂ (fun id c => d.cluster? id = some c) draft.inputs cs)
    (hp : draft.geometry.Poses draft.rule cs draft.output) : (d.addMerge draft).2.Posed := by
  have hkeep : ∀ id c, d.cluster? id = some c → (d.addMerge draft).2.cluster? id = some c :=
    fun id c hc => cluster?_addMerge.2 (.inl hc)
  intro k m hk
  rcases find?_addMerge.1 hk with hk | ⟨-, rfl⟩
  · obtain ⟨cs', out, hin', hout, hp'⟩ := h k m hk
    exact ⟨cs', out, hin'.imp hkeep, hkeep _ _ hout, hp'⟩
  · exact ⟨cs, draft.output, hin.imp hkeep, cluster?_addMerge.2 (.inr ⟨rfl, rfl⟩), hp⟩

/-- Providing one input keeps all merges wired rightly, since a hedgehog is only derived from a
cluster with its points. -/
theorem Posed.provide (h : d.Posed) {i : PlanInput} {c : Cluster} (hi : d.Offers i c) :
    (d.provide i).2.Posed := by
  cases hi with
  | existing _ => exact h
  | derived hs hv hw =>
    exact h.addMerge (.cons hs.2 .nil) (MergeGeometry.poses_hedgehog fun v hm => hw.mem hv hm)

theorem Posed.provideAll {inputs : List PlanInput} {cs : List Cluster} (h : d.Posed)
    (hg : d.Grounded) (hin : List.Forall₂ d.Offers inputs cs) : (d.provideAll inputs).2.Posed := by
  induction inputs generalizing d cs with
  | nil => exact h
  | cons i rest ih =>
    obtain ⟨c, cs', hi, hrest, rfl⟩ := List.forall₂_cons_left_iff.1 hin
    obtain ⟨new, hone⟩ := provided_provide hg hi
    rw [provideAll_cons]
    exact ih (h.provide hi) hone.grounded (hrest.imp fun _ _ ho => ho.mono hone.onTop_mono)

theorem Posed.carryOut (h : d.Posed) (hg : d.Grounded) (hp : plan.Poses d) :
    (d.carryOut plan).2.Posed := by
  obtain ⟨cs, hin, hp⟩ := hp
  rw [carryOut_eq]
  exact (h.provideAll hg hin).addMerge (hg.forall₂_provideAll hin) hp

theorem Posed.process (h : d.Posed) (hs : d.Sound) : d.process.Posed :=
  (hs.process_of_search (P := Posed) (fun _ _ hx => hx)
    (fun _ _ _ hx hP htop hfound => by
      obtain ⟨ps, hf⟩ := finding_of_search htop hfound
      exact hP.carryOut hx.grounded (hf.poses hx.grounded)) h).2

/-- After any operation every merge is wired rightly. -/
theorem Reachable.posed (h : d.Reachable) : d.Posed :=
  h.induction_of_transfer (fun _ _ hk => by cases hk)
    (fun _ _ _ hg' hm hc hp => hp.transfer hg' hm hc) fun _ hs hp => hp.process hs

end Decomposition

end PlanarSketch
