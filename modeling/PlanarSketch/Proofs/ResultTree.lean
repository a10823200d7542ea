/-
The tree of a result.

The tree of a cluster is read off the merges from the youngest to the oldest,
in one walk.  Below a cluster stand its parts with their trees, as if every
part had been looked up on its own.  No cluster is missing, so a tree is found
after every run of a sketch, and its nodes are the clusters that were not
derived, each of them once.

* `ResultTree.labels`: what the nodes of a tree say, from the top down;
* `yields_treeAmong`: the nodes of the tree are what is shown of the cluster;
* `treeAmong_eq`: the tree of a cluster is a node above the trees of its parts;
* `result_run`: the result after every run.
-/
import PlanarSketch.Proofs.Parts
import PlanarSketch.Proofs.Sketches
import PlanarSketch.Sketch.Result

namespace PlanarSketch

/-- The verdict of no node is that there is no result. -/
theorem ClusterFlag.constrainedness_ne_error (flag : ClusterFlag) :
    flag.constrainedness ≠ .error := by
  cases flag <;> exact nofun

namespace ResultTree

/-- What a node says about its cluster. -/
structure Label where
  points : List PointName
  solutions : List Configuration
  flag : ClusterFlag

mutual

/-- What the nodes say, each of them before those below it. -/
def labels : ResultTree → List Label
  | .node points solutions parts flag => ⟨points, solutions, flag⟩ :: labelsOfAll parts

def labelsOfAll : List ResultTree → List Label
  | [] => []
  | tree :: rest => tree.labels ++ labelsOfAll rest

end

theorem labelsOfAll_eq (trees : List ResultTree) : labelsOfAll trees = trees.flatMap labels := by
  induction trees with
  | nil => rfl
  | cons tree rest ih => rw [labelsOfAll, ih, List.flatMap_cons]

end ResultTree

namespace Sketch

variable {s : Solver} {id : ClusterId} {k : MergeId} {m : Merge} {ms : List Merge}

/-! ### Nodes and clusters -/

/-- The node says what the solver knows about the cluster. -/
def Describes (s : Solver) (id : ClusterId) (label : ResultTree.Label) : Prop :=
  ∃ c, s.decomposition.cluster? id = some c ∧
    label = ⟨c.points.toList, (s.candidates? id).getD [],
      flagOf (s.decomposition.isOverconstrained id) c.kind (s.candidates? id)⟩

theorem yields_nodeOf (hid : s.decomposition.Live id) (parts : List ResultTree) :
    Yields (nodeOf s id parts) fun tree =>
      ∃ label, Describes s id label ∧ tree.labels = label :: parts.flatMap ResultTree.labels := by
  obtain ⟨c, hc⟩ := Decomposition.live_iff.1 hid
  unfold nodeOf
  rw [hc]
  exact ⟨_, rfl, _, ⟨c, hc, rfl⟩, by rw [ResultTree.labels, ResultTree.labelsOfAll_eq]⟩

/-- A tree is found for every cluster, and its nodes are what is shown of the cluster. -/
theorem yields_treeAmong (hg : s.decomposition.Grounded)
    (hms : ∀ m ∈ ms, m ∈ s.decomposition.merges.values) (hid : s.decomposition.Live id) :
    Yields (treeAmong s ms id) fun tree =>
      List.Forall₂ (Describes s) (s.decomposition.shownAmong ms id) tree.labels := by
  -- The inputs of a merge are looked up among the older merges only, in the tree as in the list.
  induction ms generalizing id with
  | nil =>
    refine (yields_nodeOf hid []).imp fun tree hnode => ?_
    obtain ⟨label, hlabel, htree⟩ := hnode
    rw [htree]
    exact .cons hlabel .nil
  | cons m older ih =>
    have holder := fun m' hm' => hms m' (List.mem_cons_of_mem m hm')
    rw [treeAmong, Decomposition.shownAmong]
    split
    · obtain ⟨k, hk⟩ := Registry.mem_values_iff.1 (hms m List.mem_cons_self)
      have hlive := (hg.merge k m hk).inputs
      have hparts := Yields.mapM (f := treeAmong s older)
        (l := m.inputs.filter fun i => !s.decomposition.isDerived i)
        fun i hi => ih holder (hlive i (List.mem_of_mem_filter hi))
      refine hparts.bind fun trees htrees => ?_
      refine (yields_nodeOf hid trees).imp fun tree hnode => ?_
      obtain ⟨label, hlabel, htree⟩ := hnode
      rw [htree]
      exact .cons hlabel (List.rel_flatMap htrees fun _ _ h => h)
    · exact ih holder hid

/-! ### Part by part -/

theorem treeAmong_of_not_output (hms : ∀ m ∈ ms, m.output ≠ id) :
    treeAmong s ms id = nodeOf s id [] := by
  induction ms with
  | nil => rfl
  | cons m older ih =>
    rw [treeAmong, if_neg (hms m List.mem_cons_self)]
    exact ih fun m' hm' => hms m' (List.mem_cons_of_mem m hm')

/-- The walk down to the merge of a cluster leads past nothing that matters, and the older merges
explain the inputs. -/
theorem treeAmong_output (hg : s.decomposition.Grounded)
    (hk : s.decomposition.merges.find? k = some m)
    (h : s.decomposition.Explains ms m.output) :
    ∃ older, (∀ i ∈ m.inputs, s.decomposition.Explains older i) ∧
      treeAmong s ms m.output =
        (do nodeOf s m.output (← (s.decomposition.parts m.output).mapM (treeAmong s older))) := by
  induction ms with
  | nil => exact absurd (h.complete m (Registry.mem_values_iff.2 ⟨k, hk⟩) .refl) List.not_mem_nil
  | cons m' older ih =>
    rw [treeAmong]
    split
    · rename_i hout
      obtain ⟨k', hk'⟩ := Registry.mem_values_iff.1 (h.mem_values m' List.mem_cons_self)
      obtain rfl := hg.outputOnce k' k m' m hk' hk hout
      obtain rfl := Option.some_inj.1 (hk'.symm.trans hk)
      rw [hg.parts_output hk]
      exact ⟨older, fun i hi => h.of_input hg hi, rfl⟩
    · rename_i hne
      exact ih (h.of_other hg hne)

/-- Below the node of a cluster stand the trees of its parts.  What younger merges are left out of
the walk makes no difference. -/
theorem treeAmong_eq (hg : s.decomposition.Grounded) (hl : s.decomposition.Lineage)
    (h : s.decomposition.Explains ms id) :
    treeAmong s ms id =
      (do nodeOf s id (← (s.decomposition.parts id).mapM (treeOf s))) := by
  -- Parts are older.
  induction hn : id.serial using Nat.strongRecOn generalizing id ms with
  | ind n ih =>
    by_cases hout : ∃ k m, s.decomposition.merges.find? k = some m ∧ m.output = id
    · obtain ⟨k, m, hk, rfl⟩ := hout
      obtain ⟨older, holder, htree⟩ := treeAmong_output hg hk h
      rw [htree]
      congr 1
      refine mapM_congr fun i hi => ?_
      have hlt := hn ▸ hg.lt_of_mem_parts hi
      rw [hg.parts_output hk] at hi
      calc treeAmong s older i
          = (do nodeOf s i (← (s.decomposition.parts i).mapM (treeOf s))) :=
            ih _ hlt (holder i (List.mem_of_mem_filter hi)) rfl
        _ = treeOf s i := (ih _ hlt (hl.explains i) rfl).symm
    · have hno : ∀ k m, s.decomposition.merges.find? k = some m → m.output ≠ id :=
        fun k m hk he => hout ⟨k, m, hk, he⟩
      have hleaf : ∀ m ∈ ms, m.output ≠ id := by
        intro m hm
        obtain ⟨k, hk⟩ := Registry.mem_values_iff.1 (h.mem_values m hm)
        exact hno k m hk
      rw [treeAmong_of_not_output hleaf, Decomposition.parts_of_not_output hno]
      rfl

/-! ### All runs -/

/-- The result is the only tree of the top level or a node above all of them. -/
theorem result_of_trees {s : Sketch} {trees : List ResultTree}
    (h : s.solver.decomposition.topLevel.toList.mapM (treeOf s.solver) = .ok trees) :
    ∃ tree, s.result = .ok tree ∧ (trees = [tree] ∨ trees.length ≠ 1 ∧
      ∃ flag, tree = .node s.problem.points.keys [] trees flag) := by
  unfold result
  rw [h]
  match trees with
  | [] => exact ⟨_, rfl, .inr ⟨nofun, .unsolved, rfl⟩⟩
  | [tree] => exact ⟨tree, rfl, .inl rfl⟩
  | _ :: _ :: _ => exact ⟨_, rfl, .inr ⟨nofun, .structuralUnder, rfl⟩⟩

/-- After every run there is a result.  Its trees for the clusters on the top level are found by
going from a cluster to its parts, which ends since parts are older, and their nodes are the
clusters that no derivation computed, each of them once. -/
theorem result_run {s : Sketch} (h : Reached (fun _ _ => True) s) :
    let d := s.solver.decomposition
    s.constrainedness ≠ .error ∧
      (∀ id, treeOf s.solver id =
        (do nodeOf s.solver id (← (d.parts id).mapM (treeOf s.solver)))) ∧
      (∀ id, ∀ i ∈ d.parts id, i.serial < id.serial) ∧
      ∃ tree trees ids,
        s.result = .ok tree ∧ d.topLevel.toList.mapM (treeOf s.solver) = .ok trees ∧
        (trees = [tree] ∨ trees.length ≠ 1 ∧
          ∃ flag, tree = .node s.problem.points.keys [] trees flag) ∧
        List.Forall₂ (Describes s.solver) ids (trees.flatMap ResultTree.labels) ∧ ids.Nodup ∧
        ∀ id, id ∈ ids ↔ d.Live id ∧
          ¬∃ k m, d.merges.find? k = some m ∧ m.output = id ∧ m.rule = .deriveHedgehog := by
  intro d
  have hd : d.Reachable := h.settled.inStep.healthy.reachable
  have hg := hd.sound.grounded
  obtain ⟨hnodup, hmem⟩ := hd.shown_topLevel
  obtain ⟨trees, htrees, hnodes⟩ := Yields.mapM (f := treeOf s.solver) (l := d.topLevel.toList)
    fun id hid => yields_treeAmong hg (fun m hm => List.mem_reverse.1 hm) (hg.top id hid)
  obtain ⟨tree, hresult, hshape⟩ := result_of_trees htrees
  refine ⟨?_, fun id => treeAmong_eq hg hd.lineage (hd.lineage.explains id),
    fun id i hi => hg.lt_of_mem_parts hi, tree, trees, _, hresult, htrees, hshape,
    List.rel_flatMap hnodes fun _ _ ht => ht, hnodup, fun id => (hmem id).trans ?_⟩
  · unfold constrainedness
    rw [hresult]
    exact ClusterFlag.constrainedness_ne_error _
  · rw [← Bool.not_eq_true, hg.isDerived_iff]
    simp only [MergeRule.isDerivation, decide_eq_true_eq]

/-- A run in which a hedgehog is derived. -/
theorem result_run_derived :
    ∃ s : Sketch, Reached (fun _ _ => True) s ∧
      (∃ id ∈ s.solver.decomposition.clusters.keys, s.solver.decomposition.isDerived id = true) ∧
      ∃ tree, s.result = .ok tree := by
  let pops : List Problem.Operation := [.addPoint "a" .zero, .addPoint "b" ⟨1.0, 0.0⟩,
    .addPoint "c" ⟨0.0, 1.0⟩, .addPoint "d" ⟨1.0, 1.0⟩, .addConstraint (.angle "a" "b" "c" 1.0),
    .addConstraint (.angle "a" "b" "d" 2.0), .addConstraint (.distance "a" "b" 1.0),
    .addConstraint (.distance "b" "c" 1.0)]
  let s := (followAll.run.run (subscribed (Problem.run pops) {})).2
  have h : Reached (fun _ _ => True) s := .start (ofProblem_eq_ok (by decide +kernel))
  obtain ⟨-, -, -, tree, -, -, hresult, -⟩ := result_run h
  exact ⟨s, h, by decide +kernel, tree, hresult⟩

end Sketch

end PlanarSketch
