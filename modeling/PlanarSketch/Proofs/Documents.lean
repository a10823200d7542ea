/-
Reading what was written.

Whatever is written without numbers reads back as it was.  Numbers read back if
they are finite, since other numbers leave nothing behind, so a value reads back
just if all its numbers are finite, and otherwise it does not read at all.  This
is put together in the way in which reading is: a value reads back if its
components do, one after the other.

A tree is read down to the depth of its document.  That is deep enough for every
document, so reading is the plain recursion (`ResultTree.read?_eq`), and a tree
reads back by induction on the tree.

* `Restores`, `Restores.bind`, `Restores.mapM`: reading that succeeds just under
  a condition, one step after the other and for each member of a list;
* `Document.depth_lt_of_mem_fields?`, `ResultTree.readWithin_eq`: what is inside
  a document is less deep, and further depth makes no difference;
* `Stored.readsBack`: values of all kinds.
-/
import Mathlib.Data.List.MinMax
import PlanarSketch.Document.Results
import PlanarSketch.Proofs.Collection

namespace PlanarSketch

/-! ### Reading step by step -/

section Restores

variable {α β : Type} {x : Option α} {f : α → Option β} {P Q : Prop} {a : α} {b : β}

/-- Reading gives `a` if `P` holds, and nothing otherwise. -/
structure Restores (x : Option α) (P : Prop) (a : α) : Prop where
  eq_some : P → x = some a
  eq_none : ¬P → x = none

theorem Restores.of_eq (h : x = some a) : Restores x True a :=
  ⟨fun _ => h, fun hno => absurd trivial hno⟩

theorem Restores.congr (h : Restores x P a) (hP : P ↔ Q) : Restores x Q a :=
  ⟨fun hQ => h.eq_some (hP.2 hQ), fun hQ => h.eq_none (mt hP.1 hQ)⟩

/-- Two steps succeed just if both do. -/
theorem Restores.bind (h : Restores x P a) (hf : Restores (f a) Q b) :
    Restores (x >>= f) (P ∧ Q) b := by
  refine ⟨fun ⟨hP, hQ⟩ => ?_, fun hno => ?_⟩
  · rw [h.eq_some hP]
    exact hf.eq_some hQ
  · by_cases hP : P
    · rw [h.eq_some hP]
      exact hf.eq_none fun hQ => hno ⟨hP, hQ⟩
    · rw [h.eq_none hP]
      rfl

/-- A step that does not fail adds no condition. -/
theorem Restores.bind_of_eq (h : Restores x P a) (hf : f a = some b) : Restores (x >>= f) P b :=
  (h.bind (.of_eq hf)).congr (iff_of_eq (and_true P))

/-- A list is read if each of its members is. -/
theorem Restores.mapM {read : β → Option α} {write : α → β} {P : α → Prop}
    {l : List α} (h : ∀ a ∈ l, Restores (read (write a)) (P a) a) :
    Restores ((l.map write).mapM read) (∀ a ∈ l, P a) l := by
  induction l with
  | nil => exact (Restores.of_eq rfl).congr (by simp)
  | cons a rest ih =>
    rw [List.map_cons, List.mapM_cons, List.forall_mem_cons]
    have hrest := ih fun b hb => h b (List.mem_cons_of_mem a hb)
    exact (h a List.mem_cons_self).bind (hrest.bind_of_eq rfl)

end Restores

open Document

/-! ### Names and numbers -/

theorem Document.restores_number (x : Float) :
    Restores (ofNumber x).number? (x.isFinite = true) x := by
  unfold ofNumber
  by_cases h : x.isFinite = true
  · rw [if_pos h]
    exact (Restores.of_eq rfl).congr (by simp [h])
  · rw [if_neg h]
    exact ⟨fun hx => absurd hx h, fun _ => rfl⟩

theorem readNames?_writeNames (l : List PointName) : readNames? (writeNames l) = some l :=
  have h : Restores ((l.map Document.text).mapM text?) (∀ a ∈ l, True) l :=
    .mapM fun _ _ => .of_eq rfl
  h.eq_some fun _ _ => trivial

theorem NameSet.ofList_toList (s : NameSet) : ofList s.toList = s :=
  ext_mem fun a => by rw [mem_ofList, mem_toList]

/-- Both coordinates are finite. -/
def Vec.IsFinite (v : Vec) : Prop := v.x.isFinite = true ∧ v.y.isFinite = true

theorem Vec.restores (v : Vec) : Restores (Stored.read? (Stored.write v)) v.IsFinite v := by
  have h : Restores (([v.x, v.y].map ofNumber).mapM number?)
      (∀ x ∈ [v.x, v.y], x.isFinite = true) [v.x, v.y] :=
    .mapM fun x _ => restores_number x
  exact (h.congr (by simp [IsFinite])).bind_of_eq rfl

/-! ### Constraints and clusters -/

theorem Cluster.restores (c : Cluster) : Restores (Stored.read? (Stored.write c)) True c := by
  cases c with
  | rigid p =>
    have h := Restores.of_eq (readNames?_writeNames p.toList)
    exact h.bind_of_eq (congrArg (fun p => some (Cluster.rigid p)) p.ofList_toList)
  | hedgehog c arms =>
    have h := Restores.of_eq (readNames?_writeNames arms.toList)
    exact h.bind_of_eq (congrArg (fun p => some (Cluster.hedgehog c p)) arms.ofList_toList)
  | balloon p =>
    have h := Restores.of_eq (readNames?_writeNames p.toList)
    exact h.bind_of_eq (congrArg (fun p => some (Cluster.balloon p)) p.ofList_toList)

theorem Relation.restores (r : Relation) : Restores (Stored.read? (Stored.write r)) True r := by
  cases r <;> exact .of_eq rfl

theorem SelectionConstraint.restores (q : SelectionConstraint) :
    Restores (Stored.read? (Stored.write q)) True q := by
  obtain ⟨kind, a, b, c⟩ := q
  cases kind <;> exact .of_eq rfl

/-- The number or the position of a constraint is finite. -/
def Constraint.IsFinite : Constraint → Prop
  | .distance _ _ x => x.isFinite = true
  | .angle _ _ _ x => x.isFinite = true
  | .fix _ p => p.IsFinite
  | .selection _ => True

theorem Constraint.restores (c : Constraint) :
    Restores (Stored.read? (Stored.write c)) c.IsFinite c := by
  cases c with
  | distance a b x => exact (restores_number x).bind_of_eq rfl
  | angle a b c x => exact (restores_number x).bind_of_eq rfl
  | fix v p => exact p.restores.bind_of_eq rfl
  | selection q => exact q.restores.bind_of_eq rfl

/-- The number or the position is finite. -/
def Parameter.IsFinite : Parameter → Prop
  | .distance x => x.isFinite = true
  | .angle x => x.isFinite = true
  | .position p => p.IsFinite

theorem Parameter.restores (p : Parameter) :
    Restores (Stored.read? (Stored.write p)) p.IsFinite p := by
  cases p with
  | distance x => exact (restores_number x).bind_of_eq rfl
  | angle x => exact (restores_number x).bind_of_eq rfl
  | position p => exact p.restores.bind_of_eq rfl

/-! ### Configurations -/

/-- Every position is finite. -/
def Configuration.IsFinite (c : Configuration) : Prop := ∀ e ∈ c.points.entries, e.2.IsFinite

theorem restores_points (m : OrderedMap PointName Vec) :
    Restores (readPoints? (writePoints m)) (∀ e ∈ m.entries, e.2.IsFinite) m := by
  have h : Restores
      ((m.entries.map fun e => (e.1, Stored.write e.2)).mapM fun f => do
        return (f.1, ← Stored.read? f.2))
      (∀ e ∈ m.entries, e.2.IsFinite) m.entries :=
    .mapM fun e _ => e.2.restores.bind_of_eq rfl
  exact h.bind_of_eq (congrArg some m.ofList_entries)

theorem Configuration.restores (c : Configuration) :
    Restores (Stored.read? (Stored.write c)) c.IsFinite c :=
  (restores_points c.points).bind_of_eq rfl

/-! ### Depth -/

namespace Document

variable {α : Type} {d e : Document}

theorem depth_pos (d : Document) : 0 < d.depth := by
  unfold depth
  split <;> omega

theorem depth_lt_of_mem_list {items : List Document} (h : e ∈ items) :
    e.depth < (list items).depth := by
  have hle := List.le_max_of_le' 0 (List.mem_map_of_mem (f := depth) h) le_rfl
  rw [depth, List.attach_map_val (f := depth)]
  omega

theorem depth_lt_of_mem_record {fields : List (String × Document)} {f : String × Document}
    (h : f ∈ fields) : f.2.depth < (record fields).depth := by
  have hle := List.le_max_of_le' 0 (List.mem_map_of_mem (f := fun f => f.2.depth) h) le_rfl
  rw [depth, List.attach_map_val (f := fun f : String × Document => f.2.depth)]
  omega

theorem mem_of_field?_eq_some {name : String} {fields : List (String × Document)}
    (h : field? name fields = some e) : (name, e) ∈ fields := by
  unfold field? at h
  split at h
  · rename_i f hf
    cases h
    obtain ⟨hmem, hname⟩ := List.mem_filter.1 (hf ▸ List.mem_cons_self : f ∈ fields.filter _)
    rwa [← of_decide_eq_true hname]
  · cases h

/-- What stands in the fields of a structure is less deep. -/
theorem depth_lt_of_mem_fields? {names : List String} {contents : List Document}
    (h : d.fields? names = some contents) (he : e ∈ contents) : e.depth < d.depth := by
  cases d with
  | list items =>
    rw [fields?] at h
    split at h
    · cases h
      exact depth_lt_of_mem_list he
    · cases h
  | record fields =>
    have h := List.forall₂_iff_get.1 (forall₂_of_mapM_eq_some h)
    obtain ⟨i, hi, rfl⟩ := List.mem_iff_getElem.1 he
    exact depth_lt_of_mem_record (mem_of_field?_eq_some (h.2 i (h.1 ▸ hi) hi))
  | _ => cases h

theorem list?_congr {f g : Document → Option α} (h : ∀ e, e.depth < d.depth → f e = g e) :
    list? f d = list? g d := by
  cases d with
  | list items => exact mapM_congr fun e he => h e (depth_lt_of_mem_list he)
  | _ => rfl

end Document

/-! ### Trees -/

namespace ResultTree

theorem write_node (points : List PointName) (solutions : List Configuration)
    (parts : List ResultTree) (flag : ClusterFlag) :
    write (.node points solutions parts flag) =
      .record
        [("variables", writeNames points), ("solutions", .list (solutions.map Stored.write)),
          ("subs", .list (parts.map write)), ("flag", Stored.write flag)] := by
  rw [write, List.attach_map_val (f := write)]

theorem readNode?_congr {f g : Document → Option ResultTree} {d : Document}
    (h : ∀ e, e.depth < d.depth → f e = g e) : readNode? f d = readNode? g d := by
  refine Option.bind_congr fun contents hd => ?_
  split
  · rename_i parts _
    have hparts : parts.depth < d.depth := depth_lt_of_mem_fields? hd (by simp)
    rw [list?_congr fun e he => h e (he.trans hparts)]
  · rfl

/-- Further depth makes no difference. -/
theorem readWithin_eq {n k : Nat} {d : Document} (hn : d.depth ≤ n) (hk : d.depth ≤ k) :
    readWithin n d = readWithin k d := by
  induction n generalizing k d with
  | zero => exact absurd d.depth_pos (Nat.not_lt.2 hn)
  | succ n ih =>
    cases k with
    | zero => exact absurd d.depth_pos (Nat.not_lt.2 hk)
    | succ k => exact readNode?_congr fun e he => ih (by omega) (by omega)

/-- A tree is read by recursion along its parts. -/
theorem read?_eq (d : Document) : read? d = readNode? read? d := by
  have hd : d.depth = d.depth - 1 + 1 := (Nat.succ_pred_eq_of_pos d.depth_pos).symm
  rw [read?, hd]
  exact readNode?_congr fun e he => readWithin_eq (by omega) le_rfl

/-- All positions in all solutions are finite. -/
inductive IsFinite : ResultTree → Prop
  | node {points : List PointName} {solutions : List Configuration} {parts : List ResultTree}
      {flag : ClusterFlag} (solutions_finite : ∀ c ∈ solutions, c.IsFinite)
      (parts_finite : ∀ t ∈ parts, IsFinite t) : IsFinite (.node points solutions parts flag)

theorem isFinite_node {points : List PointName} {solutions : List Configuration}
    {parts : List ResultTree} {flag : ClusterFlag} :
    IsFinite (.node points solutions parts flag) ↔
      (∀ c ∈ solutions, c.IsFinite) ∧ ∀ t ∈ parts, IsFinite t :=
  ⟨fun ⟨hsolutions, hparts⟩ => ⟨hsolutions, hparts⟩, fun h => .node h.1 h.2⟩

theorem restores (t : ResultTree) : Restores (Stored.read? (Stored.write t)) t.IsFinite t := by
  -- By recursion along the parts, in which both writing and reading go.
  match t with
  | .node points solutions parts flag =>
    have hsolutions : Restores (list? Stored.read? (.list (solutions.map Stored.write)))
        (∀ c ∈ solutions, c.IsFinite) solutions :=
      .mapM fun c _ => c.restores
    have hparts : Restores (list? read? (.list (parts.map write)))
        (∀ t ∈ parts, t.IsFinite) parts :=
      .mapM fun t ht => restores t
    have hflag : Stored.read? (Stored.write flag) = some flag := by cases flag <;> rfl
    show Restores (read? (write _)) _ _
    rw [write_node, read?_eq, isFinite_node]
    show Restores (do
      return ResultTree.node (← readNames? (writeNames points))
        (← list? Stored.read? (.list (solutions.map Stored.write)))
        (← list? read? (.list (parts.map write))) (← Stored.read? (Stored.write flag))) _ _
    rw [readNames?_writeNames, hflag]
    exact hsolutions.bind (hparts.bind_of_eq rfl)

end ResultTree

/-! ### Values of all kinds -/

/-- The storable values of a type read back as they were written, and the others do not read. -/
def Stored.ReadsBack (α : Type) [Stored α] (storable : α → Prop) : Prop :=
  ∀ a : α, Restores (read? (write a)) (storable a) a

/-- What has no numbers always reads back, and everything else just if its numbers are finite. -/
theorem Stored.readsBack :
    ReadsBack Cluster (fun _ => True) ∧ ReadsBack Relation (fun _ => True) ∧
      ReadsBack SelectionConstraint (fun _ => True) ∧ ReadsBack Constraint Constraint.IsFinite ∧
      ReadsBack Parameter Parameter.IsFinite ∧ ReadsBack Configuration Configuration.IsFinite ∧
      ReadsBack ResultTree ResultTree.IsFinite :=
  ⟨Cluster.restores, Relation.restores, SelectionConstraint.restores, Constraint.restores,
    Parameter.restores, Configuration.restores, ResultTree.restores⟩

end PlanarSketch
