/-
Which inputs of a merge hand on their flag.

An input goes into the output of a merge in one of two ways.  It joins it, as
the base, as something moved onto the base, or as what the output is a part of;
or a triangle only takes a measure in it.  Every union takes over the flags of
both sides, so by induction over the inputs that are united the flag of an input
that joins the output is on every output.  A measure looks at positions alone:
the flag of an input that does not join can be set or taken back, and nothing
about the outcome changes, not even an error.

* `MergeGeometry.Joins`, `MergeGeometry.Reads`: the inputs that go into the
  output, and all that are looked at;
* `Configuration.Inherits`: a union that takes over both flags;
* `MergeGeometry.evaluate_set`, `MergeGeometry.flag_inherited`: the flags that
  do not matter, and those that are handed on.
-/
import PlanarSketch.Proofs.Alignment
import PlanarSketch.Proofs.Fitting

namespace PlanarSketch

namespace Configuration

variable {a : Configuration} {l : List Configuration}
  {combine : Configuration → Configuration → Configuration}

/-- A way to unite two configurations that takes over the flags of both. -/
def Inherits (combine : Configuration → Configuration → Configuration) : Prop :=
  ∀ a b, a.underconstrained = true ∨ b.underconstrained = true →
    (combine a b).underconstrained = true

theorem inherits_uniteAlong (f : Configuration → Configuration → Frame) :
    Inherits fun a b => uniteAlong (f a b) a b := by
  intro a b h
  refine (unites_uniteAlong (f a b) a b).underconstrained_iff.2 ?_
  rcases h with h | h
  · exact .inl h
  · exact .inr (.inl h)

theorem Inherits.foldl (h : Inherits combine)
    (hflag : ∃ b ∈ a :: l, b.underconstrained = true) :
    (l.foldl combine a).underconstrained = true := by
  induction l generalizing a with
  | nil =>
    obtain ⟨b, hb, hflag⟩ := hflag
    rwa [← List.mem_singleton.1 hb]
  | cons c rest ih =>
    refine ih ?_
    simp only [List.exists_mem_cons_iff, ← or_assoc] at hflag
    rcases hflag with hflag | ⟨b, hb, hflag⟩
    · exact ⟨combine a c, List.mem_cons_self, h a c hflag⟩
    · exact ⟨b, List.mem_cons_of_mem _ hb, hflag⟩

end Configuration

namespace MergeGeometry

variable {rule : MergeRule} {inputs outs : List Configuration} {a conf conf' out : Configuration}
  {geometry : MergeGeometry} {places : List Nat} {i j : Nat}

/-! ### The inputs of a merge -/

/-- The input at the place goes into the output, and not only into its measures. -/
def Joins : MergeGeometry → Nat → Prop
  | .keep i, j => j = i
  | .rigid _, _ => True
  | .scaled _, _ => True
  | .triangle _ base rigids, j => base = some j ∨ j ∈ rigids
  | .hedgehog _ _, j => j = 0

/-- The places that a merge names. -/
def named : MergeGeometry → List Nat
  | .keep i => [i]
  | .rigid base => [base]
  | .scaled base => [base]
  | .triangle data base rigids => data.reads.map Prod.fst ++ base.toList ++ rigids
  | .hedgehog _ _ => [0]

/-- All places that a merge names are places of inputs. -/
def InRange (geometry : MergeGeometry) (count : Nat) : Prop := ∀ i ∈ geometry.named, i < count

/-- The merge looks at the input at the place. -/
def Reads (geometry : MergeGeometry) (j : Nat) : Prop := geometry.Joins j ∨ j ∈ geometry.named

/-! ### Flags that are handed on -/

theorem eq_of_input (h : input rule inputs i = .ok a) (hin : inputs[i]? = some conf) : a = conf :=
  Option.some_inj.1 ((input_eq_ok h).symm.trans hin)

theorem underconstrained_of_unite {combine : Configuration → Configuration → Configuration}
    (hcombine : Configuration.Inherits combine) (h : unite combine rule inputs i = .ok out)
    (hin : inputs[j]? = some conf) (hflag : conf.underconstrained = true) :
    out.underconstrained = true := by
  obtain ⟨start, hstart, h⟩ := exists_of_bind_eq_ok h
  cases h
  refine hcombine.foldl ⟨conf, ?_, hflag⟩
  by_cases hij : j = i
  · obtain rfl : start = conf := eq_of_input hstart (hij ▸ hin)
    exact List.mem_cons_self
  · exact List.mem_cons_of_mem _ (List.mem_eraseIdx_iff_getElem?.2 ⟨j, hij, hin⟩)

theorem underconstrained_of_attach (h : attach rule inputs a places = .ok out)
    (hflag : a.underconstrained = true ∨
      ∃ i ∈ places, ∃ conf, inputs[i]? = some conf ∧ conf.underconstrained = true) :
    out.underconstrained = true := by
  -- By induction on the places: the flag is in what has been built or in what is still to come.
  induction places generalizing a with
  | nil =>
    cases h
    rcases hflag with hflag | ⟨i, hi, -⟩
    · exact hflag
    · cases hi
  | cons i rest ih =>
    obtain ⟨a', ha', h⟩ := exists_of_bind_eq_ok h
    obtain ⟨c, hc, ha'⟩ := exists_of_bind_eq_ok ha'
    cases ha'
    refine ih h ?_
    have hmerge := Configuration.inherits_uniteAlong Configuration.rigidAligner a c
    rcases hflag with hflag | ⟨k, hk, conf, hin, hflag⟩
    · exact .inl (hmerge (.inl hflag))
    · rcases List.mem_cons.1 hk with rfl | hk
      · -- This is the flagged input, and a union inherits the flag of either side.
        obtain rfl : c = conf := eq_of_input hc hin
        exact .inl (hmerge (.inr hflag))
      · exact .inr ⟨k, hk, conf, hin, hflag⟩

theorem underconstrained_of_evaluate (h : geometry.evaluate rule inputs = .ok outs)
    (hjoins : geometry.Joins j) (hin : inputs[j]? = some conf)
    (hflag : conf.underconstrained = true) (hout : out ∈ outs) : out.underconstrained = true := by
  cases geometry with
  | keep i =>
    obtain ⟨c, hc, h⟩ := exists_of_bind_eq_ok h
    obtain rfl := Except.ok.inj h
    obtain rfl : j = i := hjoins
    rwa [List.mem_singleton.1 hout, eq_of_input hc hin]
  | rigid base =>
    obtain ⟨c, hc, h⟩ := exists_of_bind_eq_ok h
    cases h
    obtain rfl := List.mem_singleton.1 hout
    exact underconstrained_of_unite (Configuration.inherits_uniteAlong _) hc hin hflag
  | scaled base =>
    obtain ⟨c, hc, h⟩ := exists_of_bind_eq_ok h
    cases h
    obtain rfl := List.mem_singleton.1 hout
    exact underconstrained_of_unite (Configuration.inherits_uniteAlong _) hc hin hflag
  | triangle data base rigids =>
    obtain ⟨solutions, -, h⟩ := exists_of_bind_eq_ok h
    obtain ⟨solution, -, h⟩ := exists_of_mem_mapM h hout
    obtain ⟨placed, hplaced, h⟩ := exists_of_bind_eq_ok h
    refine underconstrained_of_attach h ?_
    -- The base takes up the triangle, and the other rigids are attached to the outcome.
    by_cases hbase : base = some j
    · subst hbase
      obtain ⟨c, hc, hplaced⟩ := exists_of_bind_eq_ok hplaced
      cases hplaced
      obtain rfl : c = conf := eq_of_input hc hin
      exact .inl (Configuration.inherits_uniteAlong Configuration.rigidAligner c solution
        (.inl hflag))
    · have hj : j ∈ rigids := hjoins.resolve_left hbase
      refine .inr ⟨j, List.mem_filter.2 ⟨hj, ?_⟩, conf, hin, hflag⟩
      exact decide_eq_true fun h => hbase h.symm
  | hedgehog centre arms =>
    obtain rfl : j = 0 := hjoins
    obtain ⟨c, hc, h⟩ := exists_of_bind_eq_ok h
    obtain ⟨hog, hhog, h⟩ := exists_of_bind_eq_ok h
    cases h
    obtain rfl := List.mem_singleton.1 hout
    obtain ⟨p, -, hhog⟩ := exists_of_bind_eq_ok hhog
    obtain ⟨tips, -, hhog⟩ := exists_of_bind_eq_ok hhog
    cases hhog
    show c.underconstrained = true
    rwa [eq_of_input hc hin]

/-! ### Flags that do not matter -/

/-- Another input may be replaced. -/
theorem bind_input_set_of_ne {β : Type} {next next' : Configuration → Except MethodError β}
    (h : i ≠ j) (hnext : ∀ c, next c = next' c) :
    (input rule (inputs.set j conf') i >>= next) = (input rule inputs i >>= next') := by
  obtain rfl : next = next' := funext hnext
  unfold input
  rw [List.getElem?_set_ne h.symm, List.length_set]

/-- So may the input itself, by one for which what follows comes to the same. -/
theorem bind_input_set {β : Type} {next next' : Configuration → Except MethodError β}
    (hin : inputs[j]? = some conf) (hreplace : next conf' = next conf)
    (hnext : ∀ c, next c = next' c) :
    (input rule (inputs.set j conf') i >>= next) = (input rule inputs i >>= next') := by
  by_cases hij : i = j
  · obtain rfl : next = next' := funext hnext
    subst hij
    have hlt : i < inputs.length := (List.getElem?_eq_some_iff.1 hin).1
    unfold input
    rw [List.getElem?_set_self hlt, hin]
    exact hreplace
  · exact bind_input_set_of_ne hij hnext

/-- The triangles are the same, whatever the flag of an input. -/
theorem solveTriangle_set (hin : inputs[j]? = some conf) (flag : Bool) (data : TriangleData) :
    solveTriangle rule (inputs.set j { conf with underconstrained := flag }) data =
      solveTriangle rule inputs data := by
  -- Measuring reads positions only, whichever measures a triangle takes.
  cases data with
  | sides p q r pq qr rp =>
    refine bind_input_set hin rfl fun _ => bind_congr fun _ => ?_
    refine bind_input_set hin rfl fun _ => bind_congr fun _ => ?_
    exact bind_input_set hin rfl fun _ => rfl
  | sidesAndAngle a b c ab hog bc =>
    refine bind_input_set hin rfl fun _ => bind_congr fun _ => ?_
    refine bind_input_set hin rfl fun _ => bind_congr fun _ => ?_
    exact bind_input_set hin rfl fun _ => rfl
  | angleAndSides a b c ab hog bc =>
    refine bind_input_set hin rfl fun _ => bind_congr fun _ => ?_
    refine bind_input_set hin rfl fun _ => bind_congr fun _ => ?_
    exact bind_input_set hin rfl fun _ => rfl
  | angles a b c hogA hogB =>
    refine bind_input_set hin rfl fun _ => bind_congr fun _ => ?_
    exact bind_input_set hin rfl fun _ => rfl

theorem attach_set (hj : j ∉ places) :
    attach rule (inputs.set j conf') a places = attach rule inputs a places := by
  induction places generalizing a with
  | nil => rfl
  | cons i rest ih =>
    obtain ⟨hi, hrest⟩ := not_or.1 (fun h => hj (List.mem_cons.2 h))
    have hmove : (do return a.merge (← input rule (inputs.set j conf') i)) =
        (do return a.merge (← input rule inputs i) : Except MethodError Configuration) :=
      bind_input_set_of_ne (Ne.symm hi) fun _ => rfl
    show (do return a.merge (← input rule (inputs.set j conf') i)) >>= _ = _
    rw [hmove]
    exact bind_congr fun _ => ih hrest

/-- The flag of an input that does not join the output changes nothing. -/
theorem evaluate_set (hjoins : ¬geometry.Joins j) (hin : inputs[j]? = some conf) (flag : Bool) :
    geometry.evaluate rule (inputs.set j { conf with underconstrained := flag }) =
      geometry.evaluate rule inputs := by
  cases geometry with
  | keep i => exact bind_input_set_of_ne (Ne.symm hjoins) fun _ => rfl
  | rigid base => exact absurd trivial hjoins
  | scaled base => exact absurd trivial hjoins
  | triangle data base rigids =>
    -- The input is measured at most: it is neither the base nor attached.
    obtain ⟨hbase, hrigids⟩ := not_or.1 hjoins
    show (solveTriangle _ _ _ >>= _) = (solveTriangle _ _ _ >>= _)
    rw [solveTriangle_set hin]
    refine bind_congr fun solutions => ?_
    congr 1
    funext solution
    have honBase : onBase rule (inputs.set j { conf with underconstrained := flag }) base solution =
        onBase rule inputs base solution := by
      cases base with
      | none => rfl
      | some b => exact bind_input_set_of_ne (fun h => hbase (congrArg some h)) fun _ => rfl
    rw [honBase]
    exact bind_congr fun placed => attach_set fun h => hrigids (List.mem_filter.1 h).1
  | hedgehog centre arms => exact bind_input_set_of_ne (Ne.symm hjoins) fun _ => rfl

/-- The flag of an input is on every output if the input joins the output, and has no effect at all
if it does not: a triangle does not ask for the flags of the inputs it only measures. -/
theorem flag_inherited (rule : MergeRule) (geometry : MergeGeometry)
    (inputs : List Configuration) (hin : inputs[j]? = some conf) :
    (geometry.Joins j → conf.underconstrained = true →
      ∀ outs, geometry.evaluate rule inputs = .ok outs →
        ∀ out ∈ outs, out.underconstrained = true) ∧
    (¬geometry.Joins j → ∀ flag,
      geometry.evaluate rule (inputs.set j { conf with underconstrained := flag }) =
        geometry.evaluate rule inputs) :=
  ⟨fun hjoins hflag _ h _ hout => underconstrained_of_evaluate h hjoins hin hflag hout,
    fun hjoins flag => evaluate_set hjoins hin flag⟩

/-- A right angle at `b`. -/
def corner : Configuration :=
  .ofList [("a", ⟨1.0, 0.0⟩), ("b", .zero), ("c", ⟨0.0, 1.0⟩)]

/-- The two sides of a right angle, and the angle itself, which is flagged. -/
def cornerInputs : List Configuration :=
  [.ofList [("a", ⟨1.0, 0.0⟩), ("b", .zero)], corner, corner.asUnderconstrained]

/-- The triangle of two sides and the angle between them, moved onto the first side. -/
def cornerGeometry : MergeGeometry := .triangle (.sidesAndAngle "a" "b" "c" 0 2 1) (some 0) [0, 1]

theorem flag_inherited_corner :
    (∃ out, cornerGeometry.evaluate .rigidsAngleBetween
        (cornerInputs.set 1 corner.asUnderconstrained) = .ok [out] ∧
      out.underconstrained = true) ∧
    cornerGeometry.evaluate .rigidsAngleBetween (cornerInputs.set 2 corner) =
      cornerGeometry.evaluate .rigidsAngleBetween cornerInputs := by
  have hjoins : cornerGeometry.Joins 1 := .inr (by decide)
  have hmeasured : ¬cornerGeometry.Joins 2 := by
    rintro (h | h) <;> revert h <;> decide
  refine ⟨⟨_, rfl, ?_⟩, ?_⟩
  · exact (flag_inherited .rigidsAngleBetween cornerGeometry
      (cornerInputs.set 1 corner.asUnderconstrained) (j := 1) rfl).1 hjoins rfl _ rfl _
      List.mem_cons_self
  · exact (flag_inherited .rigidsAngleBetween cornerGeometry cornerInputs (j := 2) rfl).2
      hmeasured false

/-- The flag of a measured angle is on no output. -/
theorem exists_unflagged_output :
    cornerGeometry.InRange cornerInputs.length ∧ cornerGeometry.Reads 2 ∧
    ∃ conf out, cornerInputs[2]? = some conf ∧ conf.underconstrained = true ∧
      cornerGeometry.evaluate .rigidsAngleBetween cornerInputs = .ok [out] ∧
      out.underconstrained = false :=
  ⟨by unfold InRange; decide, .inr (by decide), _, _, rfl, rfl, rfl, by decide +kernel⟩

end MergeGeometry

end PlanarSketch
