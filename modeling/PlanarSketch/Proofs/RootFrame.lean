/-
The root keeps its frame.

A merge computes the configurations of its output on top of one of its inputs,
the base, whose positions it does not touch.  Every rule takes the marked
rigid as the base if there is one among the inputs.  So positions are passed
on unchanged along the chains of rigids on which marks are passed on.

* `Configuration.Extends`: a configuration has all positions of another one;
* `MergeGeometry.base?`, `MergeGeometry.extends_of_evaluate`: the base of a
  merge, and what it is for;
* `Solver.Faithful.evaluates`: a candidate of an output comes from candidates
  of the inputs, in spite of the repetitions and selections in between;
* `Framed`: a merge that passes a mark on has the marked input as its base,
  after any operation (`Reachable.framed`);
* `Solver.root_frame_run`: every candidate of a marked cluster has the
  positions of a candidate of the root.
-/
import PlanarSketch.Proofs.Choice
import PlanarSketch.Proofs.Faithful
import PlanarSketch.Proofs.RootMarks

namespace PlanarSketch

/-! ### Computations that succeed -/

section Except

variable {ε α β : Type}

theorem exists_of_bind_eq_ok {x : Except ε α} {f : α → Except ε β} {b : β}
    (h : (x >>= f) = .ok b) : ∃ a, x = .ok a ∧ f a = .ok b := by
  cases x with
  | error e => cases h
  | ok a => exact ⟨a, rfl, h⟩

theorem exists_of_mem_mapM {f : α → Except ε β} {l : List α} {bs : List β} {b : β}
    (h : l.mapM f = .ok bs) (hb : b ∈ bs) : ∃ a ∈ l, f a = .ok b := by
  induction l generalizing bs with
  | nil =>
    cases h
    cases hb
  | cons a rest ih =>
    rw [List.mapM_cons] at h
    obtain ⟨b', hb', h⟩ := exists_of_bind_eq_ok h
    obtain ⟨bs', hbs', h⟩ := exists_of_bind_eq_ok h
    cases h
    rcases List.mem_cons.1 hb with rfl | hb
    · exact ⟨a, List.mem_cons_self, hb'⟩
    · obtain ⟨a', ha', he⟩ := ih hbs' hb
      exact ⟨a', List.mem_cons_of_mem _ ha', he⟩

end Except

/-! ### Positions that stay -/

theorem OrderedMap.find?_insertNew_of_find? {α β : Type} [DecidableEq α] {m : OrderedMap α β}
    {j k : α} {v w : β} (h : m.find? j = some w) : (m.insertNew k v).find? j = some w := by
  unfold insertNew
  split
  · exact h
  · rename_i hk
    rw [find?_insert_of_ne, h]
    rintro rfl
    rw [← isSome_find?, h] at hk
    exact hk rfl

namespace Configuration

variable {a b c : Configuration}

/-- The second configuration has every position of the first one. -/
def Extends (a b : Configuration) : Prop := ∀ v p, a.position? v = some p → b.position? v = some p

theorem Extends.refl (a : Configuration) : a.Extends a := fun _ _ h => h

theorem Extends.trans (h : a.Extends b) (h' : b.Extends c) : a.Extends c :=
  fun v p hp => h' v p (h v p hp)

theorem extends_uniteAlong (f : Frame) (a b : Configuration) : a.Extends (uniteAlong f a b) := by
  intro v p hp
  show (b.points.entries.foldl (fun m e => m.insertNew e.1 (f.apply e.2)) a.points).find? v = some p
  have hp : a.points.find? v = some p := hp
  generalize a.points = m at hp
  induction b.points.entries generalizing m with
  | nil => exact hp
  | cons e rest ih => exact ih _ (OrderedMap.find?_insertNew_of_find? hp)

theorem extends_foldl {f : Configuration → Configuration → Configuration}
    (hf : ∀ a b, Extends a (f a b)) (l : List Configuration) (a : Configuration) :
    a.Extends (l.foldl f a) := by
  induction l generalizing a with
  | nil => exact .refl a
  | cons b rest ih => exact (hf a b).trans (ih (f a b))

end Configuration

/-! ### The base of a merge -/

namespace MergeGeometry

variable {rule : MergeRule} {inputs outs : List Configuration} {c conf : Configuration} {b : Nat}

/-- The place of the input whose positions the output keeps. -/
def base? : MergeGeometry → Option Nat
  | .keep i => some i
  | .rigid base => some base
  | .scaled base => some base
  | .triangle _ base _ => base
  | .hedgehog _ _ => none

theorem input_eq_ok (h : input rule inputs b = .ok c) : inputs[b]? = some c := by
  unfold input at h
  split at h
  · cases h
    assumption
  · cases h

theorem extends_of_unite {combine : Configuration → Configuration → Configuration}
    (hcombine : ∀ a b, Configuration.Extends a (combine a b))
    (h : unite combine rule inputs b = .ok conf) :
    ∃ c, inputs[b]? = some c ∧ c.Extends conf := by
  obtain ⟨c, hc, h⟩ := exists_of_bind_eq_ok h
  cases h
  exact ⟨c, input_eq_ok hc, Configuration.extends_foldl hcombine _ c⟩

theorem extends_of_attach {places : List Nat} (h : attach rule inputs c places = .ok conf) :
    c.Extends conf := by
  induction places generalizing c with
  | nil =>
    cases h
    exact .refl _
  | cons i rest ih =>
    obtain ⟨c', hc, h⟩ := exists_of_bind_eq_ok h
    obtain ⟨e, -, hc⟩ := exists_of_bind_eq_ok hc
    cases hc
    exact (Configuration.extends_uniteAlong _ c e).trans (ih h)

/-- The output keeps the positions of the base. -/
theorem extends_of_evaluate {geometry : MergeGeometry}
    (h : geometry.evaluate rule inputs = .ok outs) (hb : geometry.base? = some b)
    (hconf : conf ∈ outs) : ∃ c, inputs[b]? = some c ∧ c.Extends conf := by
  -- Each geometry unites with the base first, and what is united later only adds points.
  cases geometry with
  | keep i =>
    obtain rfl := Option.some_inj.1 hb
    obtain ⟨c, hc, h⟩ := exists_of_bind_eq_ok h
    obtain rfl := Except.ok.inj h
    rw [List.mem_singleton.1 hconf]
    exact ⟨_, input_eq_ok hc, .refl _⟩
  | rigid base =>
    obtain rfl := Option.some_inj.1 hb
    obtain ⟨c, hc, h⟩ := exists_of_bind_eq_ok h
    cases h
    obtain rfl := List.mem_singleton.1 hconf
    exact extends_of_unite (fun a b => Configuration.extends_uniteAlong _ a b) hc
  | scaled base =>
    obtain rfl := Option.some_inj.1 hb
    obtain ⟨c, hc, h⟩ := exists_of_bind_eq_ok h
    cases h
    obtain rfl := List.mem_singleton.1 hconf
    exact extends_of_unite (fun a b => Configuration.extends_uniteAlong _ a b) hc
  | triangle data base rigids =>
    obtain rfl : base = some b := hb
    obtain ⟨solutions, -, h⟩ := exists_of_bind_eq_ok h
    obtain ⟨solution, -, h⟩ := exists_of_mem_mapM h hconf
    obtain ⟨placed, hplaced, h⟩ := exists_of_bind_eq_ok h
    obtain ⟨c, hc, hplaced⟩ := exists_of_bind_eq_ok hplaced
    cases hplaced
    -- The triangle is moved onto the base, and the other rigids onto the triangle.
    exact ⟨c, input_eq_ok hc, (Configuration.extends_uniteAlong _ c solution).trans
      (extends_of_attach h)⟩
  | hedgehog centre arms => cases hb

end MergeGeometry

/-! ### Where candidates come from -/

section Gather

variable {T : Type} [BEq T] {rule : List T → Except MethodError (List T)} {kept values : List T}
  {combos lists : List (List T)} {combo : List T} {v x : T}

theorem mem_of_mem_keepNew (h : v ∈ keepNew kept x) : v ∈ kept ∨ v = x := by
  unfold keepNew at h
  split at h
  · exact .inl h
  · exact (List.mem_append.1 h).imp_right List.mem_singleton.1

theorem mem_of_mem_foldl_keepNew (h : v ∈ values.foldl keepNew kept) : v ∈ kept ∨ v ∈ values := by
  induction values generalizing kept with
  | nil => exact .inl h
  | cons x rest ih =>
    rcases ih h with h | h
    · exact (mem_of_mem_keepNew h).imp_right fun he => List.mem_cons.2 (.inl he)
    · exact .inr (List.mem_cons_of_mem _ h)

/-- What is gathered comes from some combination. -/
theorem exists_of_mem_gather (h : gather rule kept combos = .ok values) (hv : v ∈ values) :
    v ∈ kept ∨ ∃ c ∈ combos, ∃ outs, rule c = .ok outs ∧ v ∈ outs := by
  induction combos generalizing kept with
  | nil =>
    cases h
    exact .inl hv
  | cons c rest ih =>
    rw [gather] at h
    split at h
    · cases h
    · rename_i outs hc
      rcases ih h with hv | ⟨c', hc', hex⟩
      · exact (mem_of_mem_foldl_keepNew hv).imp_right fun hv =>
          ⟨c, List.mem_cons_self, outs, hc, hv⟩
      · exact .inr ⟨c', List.mem_cons_of_mem _ hc', hex⟩

omit [BEq T] in
/-- A combination has one candidate of each list. -/
theorem forall₂_of_mem_combinations (h : combo ∈ combinations lists) :
    List.Forall₂ (fun l x => x ∈ l) lists combo := by
  induction lists generalizing combo with
  | nil =>
    rw [List.mem_singleton.1 h]
    exact .nil
  | cons l rest ih =>
    obtain ⟨x, hx, h⟩ := List.mem_flatMap.1 h
    obtain ⟨c, hc, rfl⟩ := List.mem_map.1 h
    exact .cons hx (ih hc)

/-- A value of a lifted method is one of the method itself, for one candidate of each list. -/
theorem MultiMethod.exists_of_lift {method : MultiMethod T}
    (h : method.lift.run lists = .ok [values]) (hv : v ∈ values) :
    ∃ combo outs, List.Forall₂ (fun l x => x ∈ l) lists combo ∧
      method.run combo = .ok outs ∧ v ∈ outs := by
  change (gather method.run [] (combinations lists)).map _ = _ at h
  cases hg : gather method.run [] (combinations lists) with
  | error e =>
    rw [hg] at h
    cases h
  | ok gathered =>
    rw [hg] at h
    obtain rfl := List.singleton_inj.1 (Except.ok.inj h)
    rcases exists_of_mem_gather hg hv with hno | ⟨combo, hcombo, outs, houts, hv⟩
    · cases hno
    · exact ⟨combo, outs, forall₂_of_mem_combinations hcombo, houts, hv⟩

end Gather

theorem exists_of_selectMethod {name : String} {s : Selector} {args : List Candidates}
    {cs : Candidates} {c : Configuration} (h : (selectMethod name s).run args = .ok [cs])
    (hc : c ∈ cs) : ∃ candidates prototypes, args = [candidates, prototypes] ∧ c ∈ candidates := by
  match args, h with
  | [candidates, prototypes], h =>
    obtain rfl := List.singleton_inj.1 (Except.ok.inj h)
    exact ⟨candidates, prototypes, rfl, (s.select_sublist candidates prototypes.head?).subset hc⟩

namespace Dataflow

variable {V : Type} {g : Dataflow V}

/-- The value of the only output of a consistent method is computed from those of the inputs. -/
theorem Consistent.exists_arguments {method : Method V} {inputs : List (CellId V)} {out : CellId V}
    {v : V} (h : g.Consistent ⟨method, inputs, [out]⟩) (hv : g.value? out = some v) :
    ∃ args, List.Forall₂ (fun c v => g.value? c = some v) inputs args ∧
      method.run args = .ok [v] := by
  have h : g.results ⟨method, inputs, [out]⟩ = .ok [some v] := h.trans (by rw [← hv]; rfl)
  unfold results at h
  split at h
  · cases h
  · rename_i args hargs
    refine ⟨args, forall₂_of_mapM_eq_some hargs, ?_⟩
    split at h
    · cases h
    · rename_i values hrun
      split at h
      · obtain ⟨v', rfl, he⟩ := List.map_eq_singleton_iff.1 (Except.ok.inj h)
        rw [hrun, Option.some_inj.1 he]
      · cases h

end Dataflow

namespace Solver

open Decomposition

variable {s : Solver} {k : MergeId} {m : Merge} {cs : Candidates} {conf : Configuration}

/-- A candidate of the output of a merge is computed from candidates of the inputs. -/
theorem Faithful.evaluates (h : s.Faithful) (hk : s.decomposition.merges.find? k = some m)
    (hcs : s.candidates? m.output = some cs) (hconf : conf ∈ cs) :
    ∃ args outs, List.Forall₂ (fun id a => ∃ as, s.candidates? id = some as ∧ a ∈ as)
      m.inputs args ∧ m.geometry.evaluate m.rule args = .ok outs ∧ conf ∈ outs := by
  obtain ⟨w, hw⟩ := (h.mirrors.merges k).1 ⟨m, hk⟩
  obtain ⟨inputs, hin, hmerge⟩ := (h.mirrors.computes k m w hk hw).merge
  obtain ⟨out, name, selector, hout, hselect⟩ := (h.mirrors.computes k m w hk hw).select
  -- The selector has chosen among the candidates of the merge.
  have hvalue : s.flow.value? out = some cs := by
    rw [candidates?, hout] at hcs
    exact hcs
  obtain ⟨args, hargs, hrun⟩ := (h.current _ _ hselect).exists_arguments hvalue
  obtain ⟨gathered, prototypes, rfl, hmem⟩ := exists_of_selectMethod hrun hconf
  have hgathered := (List.forall₂_cons.1 hargs).1
  -- The merge has gathered those over all combinations.
  obtain ⟨lists, hlists, hrun⟩ := (h.current _ _ hmerge).exists_arguments hgathered
  obtain ⟨combo, outs, hcombo, houts, hmem⟩ := MultiMethod.exists_of_lift hrun hmem
  refine ⟨combo, outs, ?_, houts, hmem⟩
  refine List.forall₂_iff_get.2 ⟨hin.length_eq.trans (hlists.length_eq.trans hcombo.length_eq),
    fun n hn hn' => ?_⟩
  have hcell : n < inputs.length := hin.length_eq ▸ hn
  have hlist : n < lists.length := hlists.length_eq ▸ hcell
  refine ⟨lists.get ⟨n, hlist⟩, ?_, hcombo.get hlist hn'⟩
  rw [candidates?, hin.get hn hcell]
  exact hlists.get hcell hlist

end Solver

/-! ### Marked inputs are bases -/

/-- If the output can be marked, then a marked input is the base. -/
def Plan.Framed (plan : Plan) (d : Decomposition) : Prop :=
  plan.output.isRigid = true → ∀ id, .existing id ∈ plan.inputs → d.holdsRoot id = true →
    ∃ b, plan.geometry.base? = some b ∧ plan.inputs[b]? = some (.existing id)

namespace Decomposition

variable {d d' : Decomposition} {a id : ClusterId} {p : Placed} {plan : Plan}

/-- A merge with a marked input and a marked output has the marked input as its base. -/
def Framed (d : Decomposition) : Prop :=
  ∀ k m a, d.merges.find? k = some m → d.holdsRoot m.output = true → a ∈ m.inputs →
    d.holdsRoot a = true → ∃ b, m.geometry.base? = some b ∧ m.inputs[b]? = some a

theorem Marked.isRigid (h : d.Marked) (hp : d.OnTop p) (hm : d.holdsRoot p.id = true) :
    p.cluster.isRigid = true := by
  obtain ⟨q, hq⟩ := h.rigidAt hm
  rw [Option.some_inj.1 (hp.2.symm.trans hq)]
  rfl

/-- The place of the root is that of the marked rigid. -/
theorem Sound.getElem?_rootPlace (h : d.Sound) (hm : d.Marked) {ps : List Placed}
    (hps : ∀ p ∈ ps, d.OnTop p) (hp : p ∈ ps) (hmark : d.holdsRoot p.id = true) :
    ps[d.rootPlace ps]? = some p := by
  have hany : ps.any (fun q => d.holdsRoot q.id && q.cluster.isRigid) = true := by
    refine List.any_eq_true.2 ⟨p, hp, ?_⟩
    rw [hmark, hm.isRigid (hps p hp) hmark]
    rfl
  rw [← List.findIdx?_isSome] at hany
  obtain ⟨i, hi⟩ := Option.isSome_iff_exists.1 hany
  obtain ⟨hlt, hq, -⟩ := List.findIdx?_eq_some_iff_getElem.1 hi
  rw [Bool.and_eq_true] at hq
  have htop := hps _ (List.getElem_mem hlt)
  have hid := h.eq_of_marked hm htop.1 (hps p hp).1 hq.1 hmark
  have hplace : d.rootPlace ps = i := by
    unfold rootPlace
    rw [hi]
    rfl
  rw [hplace, List.getElem?_eq_getElem hlt, htop.eq_of_id (hps p hp) hid]

theorem Sound.framed_of_rootPlace (h : d.Sound) (hm : d.Marked) {ps : List Placed}
    {l : List PlanInput} (hps : ∀ p ∈ ps, d.OnTop p)
    (hin : plan.inputs = ps.map (fun p => .existing p.id) ++ l)
    (hbase : plan.geometry.base? = some (d.rootPlace ps))
    (hrest : ∀ id, .existing id ∈ l → d.holdsRoot id ≠ true) : plan.Framed d := by
  intro _ id hid hmark
  rw [hin, List.mem_append, List.mem_map] at hid
  rcases hid with ⟨p, hp, he⟩ | hid
  · obtain rfl := PlanInput.existing.inj he
    have hget := h.getElem?_rootPlace hm hps hp hmark
    refine ⟨_, hbase, ?_⟩
    rw [hin, List.getElem?_append_left, List.getElem?_map, hget]
    · rfl
    · rw [List.length_map]
      exact (List.getElem?_eq_some_iff.1 hget).1
  · exact absurd hmark (hrest id hid)

/-- A hedgehog is never marked. -/
theorem Marked.not_holdsRoot_withArms (hm : d.Marked) {hog : PlacedHedgehog} {arms : NameSet}
    (hh : d.OnTop hog.placed) (hid : .existing id ∈ [withArms hog arms]) :
    d.holdsRoot id ≠ true := by
  intro hmark
  rw [List.mem_singleton] at hid
  unfold withArms at hid
  split at hid
  · rw [PlanInput.existing.inj hid] at hmark
    exact Bool.false_ne_true (hm.isRigid hh hmark)
  · cases hid

theorem Sound.framed_joinPoint (h : d.Sound) (hm : d.Marked) {rigid point : Placed}
    (hr : d.OnTop rigid) (hp : d.OnTop point) (hne : rigid.id ≠ point.id) :
    (d.joinPoint rigid point).Framed d := by
  intro _ id hid hmark
  rcases List.mem_pair.1 hid with he | he
  · rw [PlanInput.existing.inj he] at hmark ⊢
    refine ⟨0, ?_, rfl⟩
    simp [joinPoint, hmark, MergeGeometry.base?]
  · rw [PlanInput.existing.inj he] at hmark ⊢
    have hother : d.holdsRoot rigid.id = false := by
      rw [← Bool.not_eq_true]
      exact fun hmark' => hne (h.eq_of_marked hm hr.1 hp.1 hmark' hmark)
    refine ⟨1, ?_, rfl⟩
    simp [joinPoint, hmark, hother, MergeGeometry.base?]

/-- Every rule takes the marked rigid as the base. -/
theorem Finding.framed {ps : List ClusterId} (hf : Finding d ps plan) (h : d.Sound)
    (hm : d.Marked) : plan.Framed d := by
  have hrigid : ∀ {q : Placed}, d.OnTop q → d.holdsRoot q.id = true → q.cluster.kind = .rigid :=
    fun hq hmark => Cluster.isRigid_iff.1 (hm.isRigid hq hmark)
  -- The base is fixed where the rule knows which input is the rigid, and chosen by the mark among
  -- several rigids.
  cases hf with
  | @absorb cover hog _ hc hh hplan =>
    obtain ⟨hkind, -, -, -, rfl⟩ := absorb?_eq_some hplan
    intro _ id hid hmark
    rcases List.mem_pair.1 hid with he | he
    · exact ⟨0, rfl, congrArg some he.symm⟩
    · -- A hedgehog bears no mark.
      rw [PlanInput.existing.inj he] at hmark
      rw [hrigid hh hmark] at hkind
      cases hkind
  | @balloonRigid balloon rigid _ hb hr hplan =>
    obtain ⟨hkind, -, -, rfl⟩ := balloonRigid?_eq_some hplan
    intro _ id hid hmark
    rcases List.mem_pair.1 hid with he | he
    · -- Nor does a balloon.
      rw [PlanInput.existing.inj he] at hmark
      rw [hrigid hb hmark] at hkind
      cases hkind
    · exact ⟨1, rfl, congrArg some he.symm⟩
  | pointRigid hme ho hne hr hv hplan =>
    obtain ⟨-, ⟨-, rfl⟩ | ⟨-, -, rfl⟩⟩ := pointRigid?_eq_some hplan
    · exact h.framed_joinPoint hm ho hme hne
    · exact h.framed_joinPoint hm hme ho hne.symm
  | @rigidRigid me other _ hme ho hne hr hplan =>
    obtain ⟨-, -, rfl⟩ := rigidRigid?_eq_some hplan
    have htop : ∀ q ∈ [me, other], d.OnTop q := by simp [hme, ho]
    exact h.framed_of_rootPlace hm (l := []) htop rfl rfl nofun
  | balloons hme ho hne hb hplan =>
    obtain ⟨-, -, rfl⟩ := balloons?_eq_some hplan
    exact nofun
  | hedgehogs hme ho hne hplan =>
    obtain ⟨arms, a, -, -, -, rfl⟩ := hedgehogs?_eq_some hplan
    exact nofun
  | @threeRigids me first second _ hme h₁ h₂ hne₁ hne₂ hr hplan =>
    obtain ⟨-, -, -, p, q, r, -, -, -, -, -, -, rfl⟩ := threeRigids?_eq_some hplan
    have htop : ∀ q ∈ [me, first, second], d.OnTop q := by simp [hme, h₁, h₂]
    exact h.framed_of_rootPlace hm (l := []) htop rfl rfl nofun
  | @angleBetween r n hog a b c hr hn hh =>
    have htop : ∀ q ∈ [r, n], d.OnTop q := by simp [hr, hn]
    exact h.framed_of_rootPlace hm htop rfl rfl fun _ => hm.not_holdsRoot_withArms hh
  | @angleBeside r n hog b c near far i j hr hn hh =>
    have htop : ∀ q ∈ [r, n], d.OnTop q := by simp [hr, hn]
    exact h.framed_of_rootPlace hm htop rfl rfl fun _ => hm.not_holdsRoot_withArms hh
  | extend hs hh hk hc hplan =>
    obtain ⟨-, -, -, -, rfl⟩ := extendHedgehog?_eq_some hplan
    exact nofun
  | triangle hme ho hb ha hc hplan =>
    obtain ⟨-, rfl⟩ := triangleOver?_eq_some hplan
    exact nofun

theorem Framed.remnant (h : d.Framed) (hg : d'.Grounded) (hrem : d'.Remnant d) : d'.Framed := by
  intro k m a hk hout ha hma
  have hs := hg.merge k m hk
  rw [holdsRoot_congr (hrem.find?_eq hs.output)] at hout
  rw [holdsRoot_congr (hrem.find?_eq (hs.inputs a ha))] at hma
  exact h k m a (hrem.merges k m hk) hout ha hma

theorem Framed.partOf (h : d.Framed) (hg : d.Grounded) (hp : d.PartOf d')
    (hnew : ∀ k m a, d'.merges.find? k = some m → d.merges.find? k = none →
      d'.holdsRoot m.output = true → a ∈ m.inputs → d'.holdsRoot a = true →
      ∃ b, m.geometry.base? = some b ∧ m.inputs[b]? = some a) : d'.Framed := by
  intro k m a hk hout ha hma
  cases hold : d.merges.find? k with
  | none => exact hnew k m a hk hold hout ha hma
  | some m' =>
    obtain rfl := Option.some_inj.1 ((hp.merges k m' hold).symm.trans hk)
    have hs := hg.merge k m' hold
    rw [holdsRoot_congr (hp.find?_eq hs.output)] at hout
    rw [holdsRoot_congr (hp.find?_eq (hs.inputs a ha))] at hma
    exact h k m' a hold hout ha hma

theorem Framed.addMerge {draft : MergeDraft} (h : d.Framed) (hg : d.Grounded)
    (hin : ∀ id ∈ draft.inputs, d.Live id)
    (hnew : draft.output.isRigid = true → ∀ a ∈ draft.inputs, d.holdsRoot a = true →
      ∃ b, draft.geometry.base? = some b ∧ draft.inputs[b]? = some a) :
    (d.addMerge draft).2.Framed := by
  have hp := partOf_addMerge d draft
  refine h.partOf hg hp fun k m a hk hold hout ha hma => ?_
  rcases find?_addMerge.1 hk with hk | ⟨-, rfl⟩
  · rw [hold] at hk
    cases hk
  · have hmark := (holdsRoot_insertCluster (d.outputFor draft)).symm.trans hout
    rw [outputFor, Bool.and_eq_true] at hmark
    rw [holdsRoot_congr (hp.find?_eq (hin a ha))] at hma
    exact hnew hmark.1 a ha hma

theorem getElem?_provideAll {inputs : List PlanInput} {b : Nat}
    (h : inputs[b]? = some (.existing id)) : (d.provideAll inputs).1[b]? = some id := by
  induction inputs generalizing d b with
  | nil => cases h
  | cons i rest ih =>
    rw [provideAll_cons]
    cases b with
    | zero =>
      rw [List.getElem?_cons_zero] at h ⊢
      cases Option.some_inj.1 h
      rfl
    | succ b =>
      rw [List.getElem?_cons_succ] at h ⊢
      exact ih h

theorem Framed.carryOut (h : d.Framed) (hm : d.Marked) (hg : d.Grounded) (hp : plan.Sound d)
    (hframed : plan.Framed d) : (d.carryOut plan).2.Framed := by
  have hin : ∀ i ∈ plan.inputs, ∃ c, d.Offers i c := fun _ => hp.offers
  obtain ⟨new, hpr⟩ := provided_provideAll hg hin
  obtain ⟨hx, hxm⟩ := hg.provideAll_induction (P := fun x => x.Framed ∧ x.Marked) hin
    (fun x source centre arms hxg hs hP => by
      have hlive : ∀ id ∈ [source], x.Live id := fun id hid => List.mem_singleton.1 hid ▸ hs
      exact ⟨hP.1.addMerge hxg hlive nofun, hP.2.addMerge hxg hlive fun _ => rfl⟩) ⟨h, hm⟩
  rw [carryOut_eq]
  refine hx.addMerge hpr.grounded
    (fun id hid => hpr.grounded.top id (hpr.mem_topLevel_of_mem hid)) fun hrigid a ha hma => ?_
  -- A marked input was there before, since only hedgehogs have been derived.
  have hold : a ∈ d.topLevel := by
    have htop : a ∈ (d.provideAll plan.inputs).2.topLevel.toList := hpr.mem_topLevel_of_mem ha
    rw [hpr.topLevel] at htop
    rcases List.mem_append.1 htop with htop | htop
    · exact htop
    · obtain ⟨m, hmem, rfl⟩ := List.mem_map.1 htop
      have hvalues : m ∈ (d.provideAll plan.inputs).2.merges.values := by
        rw [hpr.grown.merges]
        exact List.mem_append_right _ hmem
      obtain ⟨k, hk⟩ := Registry.mem_values_iff.1 hvalues
      exact absurd (hxm.rigidAt hma) (hxm.derived k m hk (hpr.derivations m hmem).1)
  have hlive := hg.top a hold
  rw [holdsRoot_congr ((partOf_provideAll plan.inputs d).find?_eq hlive)] at hma
  obtain ⟨b, hbase, hb⟩ := hframed hrigid a ((hpr.kept a hlive).1 ha) hma
  exact ⟨b, hbase, getElem?_provideAll hb⟩

theorem Framed.process (h : d.Framed) (hm : d.Marked) (hs : d.Sound) : d.process.Framed :=
  (hs.process_of_search (P := fun x => x.Framed ∧ x.Marked)
    (fun _ _ hx => ⟨hx.1, hx.2.congr rfl rfl rfl⟩)
    (fun _ _ _ hx hP htop hfound => by
      obtain ⟨ps, hf⟩ := finding_of_search htop hfound
      have hplan := hf.sound hx.grounded
      exact ⟨hP.1.carryOut hP.2 hx.grounded hplan (hf.framed hx hP.2),
        hP.2.carryOut hx.grounded hplan⟩) ⟨h, hm⟩).2.1

/-- After any operation a merge that passes the mark on has the marked input as its base. -/
theorem Reachable.framed (h : d.Reachable) : d.Framed := by
  have hjournal : ∀ {d : Decomposition}, d.Framed → d.withoutJournal.Framed := fun hd => hd
  induction h with
  | empty => exact fun k m a hk => by cases hk
  | @add d _ c _ hd ha ih =>
    obtain ⟨hc, -, rfl⟩ := hd.sound.add_eq_ok.1 ha
    have hg := hd.sound.grounded
    refine hjournal (Framed.process ?_ (hd.marked.receive hg c) (hd.sound.receive hc))
    refine ih.partOf hg (partOf_receive d c) fun k m a hk hold => ?_
    have hk : d.merges.find? k = some m := hk
    rw [hold] at hk
    cases hk
  | @remove d _ id hd hr ih =>
    obtain ⟨-, hdet, rfl⟩ := hd.sound.remove_eq_ok.1 hr
    obtain ⟨hs, hrem⟩ := hd.sound.dropCluster hdet
    refine hjournal ((ih.remnant hs.grounded hrem).process ?_ hs)
    exact hd.marked.remnant hs.grounded hrem (unwinds_dropCluster d id).swept
      fun k m hk hl => hd.sound.find?_dropCluster hd.lineage hdet hk hl
  | @setRoot d _ id hd hr ih =>
    obtain ⟨p, hp, rfl⟩ := hd.sound.setRoot_eq_ok.1 hr
    have hs := (hd.sound.reroot id).1
    have hmarked := hd.marked.reroot hd.sound hd.lineage ⟨p, hp⟩
    refine hjournal (Framed.process (fun k m a hk _ ha hma => ?_) hmarked hs)
    -- Only the new root is marked, and nothing reads it.
    have hlive := (hs.grounded.merge k m hk).inputs a ha
    obtain rfl := (hd.sound.holdsRoot_reroot hd.lineage hd.marked hlive).1 hma
    exact absurd ⟨k, m, hk, ha, rfl⟩ (hd.sound.unread_reroot a)

end Decomposition

namespace Solver

open Decomposition

/-! ### All runs -/

/-- After every run in which every call succeeds and candidates are given to added clusters only,
every candidate of a marked cluster has all positions of some candidate of the root. -/
theorem root_frame_run (config : SolverConfig) (ops : List Operation)
    (hok : (withConfig config).acceptsAll ops = true)
    (hadded : (withConfig config).assignsAllAdded ops = true) :
    let s := run config ops
    ∀ c cs conf, s.decomposition.holdsRoot c = true → s.candidates? c = some cs → conf ∈ cs →
      ∃ r rs root, s.decomposition.root = some r ∧ s.candidates? r = some rs ∧ root ∈ rs ∧
        ∀ v p, root.position? v = some p → conf.position? v = some p := by
  intro s
  have hs : s.Faithful := faithful_run config ops hok hadded
  have hreach : s.decomposition.Reachable := reachable_run config ops
  have hframed := hreach.framed
  have hmarked := hreach.marked
  -- The inputs of the merge that computed a cluster are older than it.
  intro c
  induction hn : c.serial using Nat.strongRecOn generalizing c with
  | ind n ih =>
    intro cs conf hc hcs hconf
    rcases (hmarked.mark c (live_of_holdsRoot hc)).1 hc with hroot | ⟨a, hpass, hma⟩
    · exact ⟨c, cs, conf, hroot, hcs, hconf, fun _ _ hp => hp⟩
    · have hlt := hreach.sound.grounded.serial_lt_of_feeds hpass.2.2
      obtain ⟨-, -, k, m, hk, hin, rfl⟩ := hpass
      obtain ⟨b, hbase, hb⟩ := hframed k m a hk hc hin hma
      obtain ⟨args, outs, hargs, houts, hmem⟩ := hs.evaluates hk hcs hconf
      obtain ⟨e, he, hext⟩ := MergeGeometry.extends_of_evaluate houts hbase hmem
      obtain ⟨hb₁, rfl⟩ := List.getElem?_eq_some_iff.1 hb
      obtain ⟨hb₂, rfl⟩ := List.getElem?_eq_some_iff.1 he
      obtain ⟨as, has, hmem⟩ := hargs.get hb₁ hb₂
      obtain ⟨r, rs, root, hr, hrs, hroot, hframe⟩ := ih _ (hn ▸ hlt) _ rfl as _ hma has hmem
      exact ⟨r, rs, root, hr, hrs, hroot, Configuration.Extends.trans hframe hext⟩

/-- A rigid of two points moves to the lone point that is the root. -/
theorem root_frame_run_point :
    let ops : List Operation :=
      [.add (.rigid (.ofList ["A"])), .setRoot ⟨1⟩,
        .assign ⟨1⟩ [.ofList [("A", ⟨3, 4⟩)]],
        .add (.rigid (.ofList ["A", "B"])),
        .assign ⟨2⟩ [.ofList [("A", ⟨0, 0⟩), ("B", ⟨1, 0⟩)]]]
    (run {} ops).decomposition.root = some ⟨1⟩ ∧
      (run {} ops).decomposition.holdsRoot ⟨3⟩ = true ∧
      ((run {} ops).candidates? ⟨1⟩).map (List.map Configuration.names) = some [["A"]] ∧
      ((run {} ops).candidates? ⟨3⟩).map (List.map Configuration.names) = some [["A", "B"]] ∧
      ∀ cs conf, (run {} ops).candidates? ⟨3⟩ = some cs → conf ∈ cs →
        ∃ r rs root, (run {} ops).decomposition.root = some r ∧
          (run {} ops).candidates? r = some rs ∧ root ∈ rs ∧
          ∀ v p, root.position? v = some p → conf.position? v = some p := by
  intro ops
  have hmark : (run {} ops).decomposition.holdsRoot ⟨3⟩ = true := by decide +kernel
  have hframe := root_frame_run {} ops (by decide +kernel) (by decide +kernel) ⟨3⟩
  exact ⟨by decide +kernel, hmark, by decide +kernel, by decide +kernel,
    fun cs conf => hframe cs conf hmark⟩

end Solver

end PlanarSketch
