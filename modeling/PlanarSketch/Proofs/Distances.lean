/-
Distances do not depend on the order of the points.

The difference of two floating-point numbers, and the opposite difference, have
the same magnitude for all numbers, infinities and what is no number included:
they are the same or differ in the sign alone.  The magnitude is all that a
square depends on, and so a distance is the same from either end.

* `abs_sub_eq`, `abs_unpack_pack`: magnitudes of differences, and of what is
  read back after packing;
* `sub_mul_sub_comm`: the square of a difference;
* `Vec.norm_sub_comm`: the distance of two points.
-/
import PlanarSketch.Plane.Vec

namespace PlanarSketch

open Float.Model Float.Model.UnpackedFloat

variable {f : Format}

/-! ### Magnitudes -/

theorem abs_zero_or_finite {z : Prop} [Decidable z] {s t : Sign} {m : Nat} {e : Int}
    {hm : ¬z → 0 < m} : (if h : z then zero s else finite s m e (hm h)).abs =
      (if h : z then zero t else finite t m e (hm h)).abs := by
  by_cases h : z
  · rw [dif_pos h, dif_pos h]
    rfl
  · rw [dif_neg h, dif_neg h]
    rfl

theorem abs_round (s t : Sign) (m : Nat) (e : Int) :
    (UnpackedFloat.round f s m e).abs = (UnpackedFloat.round f t m e).abs := by
  unfold UnpackedFloat.round roundWithAccuracy
  exact abs_zero_or_finite

theorem abs_normalize_neg (m e : Int) (s : Sign) :
    (UnpackedFloat.normalize f (-m) e s).abs = (UnpackedFloat.normalize f m e s).abs := by
  unfold UnpackedFloat.normalize
  rcases Int.lt_trichotomy m 0 with h | rfl | h
  · rw [Int.compare_eq_lt.2 h, Int.compare_eq_gt.2 (Int.neg_pos_of_neg h)]
    exact abs_round _ _ _ _
  · rfl
  · rw [Int.compare_eq_gt.2 h, Int.compare_eq_lt.2 (Int.neg_neg_of_pos h), Int.neg_neg]
    exact abs_round _ _ _ _

theorem sub_finite (s t : Sign) (m n : Nat) (e e' : Int) (hm : 0 < m) (hn : 0 < n) :
    UnpackedFloat.sub f (.finite s m e hm) (.finite t n e' hn) =
      UnpackedFloat.normalize f (s.apply (decreaseExponent m e (min e e')).1 -
        t.apply (decreaseExponent n e' (min e e')).1) (min e e') .positive :=
  rfl

/-- Opposite differences have the same magnitude. -/
theorem abs_sub_eq (x y : UnpackedFloat) :
    (UnpackedFloat.sub f x y).abs = (UnpackedFloat.sub f y x).abs := by
  -- Only two finite numbers are really subtracted; everything else is decided by the kinds.
  cases x with
  | notANumber => cases y <;> rfl
  | infinity s =>
    cases y with
    | infinity t => cases s <;> cases t <;> rfl
    | notANumber => rfl
    | zero t => rfl
    | finite t n e' hn => rfl
  | zero s =>
    cases y with
    | zero t => cases s <;> cases t <;> rfl
    | notANumber => rfl
    | infinity t => rfl
    | finite t n e' hn => rfl
  | finite s m e hm =>
    cases y with
    | zero t => rfl
    | notANumber => rfl
    | infinity t => rfl
    | finite t n e' hn =>
      rw [sub_finite, sub_finite, Int.min_comm e' e, ← abs_normalize_neg, Int.neg_sub]

/-- A square depends on the magnitude alone. -/
theorem mul_abs_self (x : UnpackedFloat) : x.abs.mul f x.abs = x.mul f x := by
  cases x with
  | notANumber => rfl
  | infinity s => cases s <;> rfl
  | zero s => cases s <;> rfl
  | finite s m e hm => cases s <;> rfl

/-! ### Packing -/

theorem abs_finite_congr {s t : Sign} {m m' : Nat} {e : Int} {hm : 0 < m} {hm' : 0 < m'}
    (h : m = m') : (finite s m e hm).abs = (finite t m' e hm').abs := by
  subst h
  rfl

theorem abs_unpack_congr {x y : BitVec f.numBits} (hmantissa : unpackMantissa x = unpackMantissa y)
    (hexponent : unpackExponent x = unpackExponent y) :
    (UnpackedFloat.unpack f x).abs = (UnpackedFloat.unpack f y).abs := by
  unfold UnpackedFloat.unpack
  dsimp only
  rw [hexponent]
  -- The sign is not looked at: the exponent tells infinities, subnormal and normal numbers apart.
  by_cases hspecial : unpackExponent y = -1#f.exponentBits
  · rw [if_pos hspecial, if_pos hspecial, hmantissa]
    split <;> rfl
  · rw [if_neg hspecial, if_neg hspecial]
    by_cases hsmall : unpackExponent y = 0#f.exponentBits
    · rw [if_pos hsmall, if_pos hsmall]
      by_cases hzero : unpackMantissa y = 0#f.mantissaBitsWithoutImplicit
      · rw [dif_pos hzero, dif_pos (hmantissa.trans hzero)]
        rfl
      · rw [dif_neg hzero, dif_neg (hmantissa ▸ hzero)]
        exact abs_finite_congr (congrArg BitVec.toNat hmantissa)
    · rw [if_neg hsmall, if_neg hsmall]
      exact abs_finite_congr (congrArg (fun m => (1#1 ++ m).toNat) hmantissa)

theorem abs_unpack_packComponents (s t : Sign) (e : BitVec f.exponentBits)
    (m : BitVec f.mantissaBitsWithoutImplicit) :
    (UnpackedFloat.unpack f (packComponents f s e m)).abs =
      (UnpackedFloat.unpack f (packComponents f t e m)).abs := by
  refine abs_unpack_congr ?_ ?_
  · rw [unpackMantissa_packComponents, unpackMantissa_packComponents]
  · rw [unpackExponent_packComponents, unpackExponent_packComponents]

/-- The sign is packed beside the rest. -/
theorem exists_pack_finite (m : Nat) (e : Int) (hm : 0 < m) :
    ∃ e' m', ∀ s, UnpackedFloat.pack f (.finite s m e hm) = packComponents f s e' m' := by
  unfold UnpackedFloat.pack
  dsimp only
  split
  · exact ⟨_, _, fun _ => rfl⟩
  · split
    · exact ⟨_, _, fun _ => rfl⟩
    · exact ⟨_, _, fun _ => rfl⟩

/-- The magnitude that is read back depends on the magnitude that was packed. -/
theorem abs_unpack_pack (x : UnpackedFloat) :
    (UnpackedFloat.unpack f (UnpackedFloat.pack f x)).abs =
      (UnpackedFloat.unpack f (UnpackedFloat.pack f x.abs)).abs := by
  cases x with
  | notANumber => rfl
  | infinity s => exact abs_unpack_packComponents _ _ _ _
  | zero s => exact abs_unpack_packComponents _ _ _ _
  | finite s m e hm =>
    obtain ⟨e', m', hpack⟩ := exists_pack_finite (f := f) m e hm
    show _ = (UnpackedFloat.unpack f (UnpackedFloat.pack f (.finite .positive m e hm))).abs
    rw [hpack, hpack]
    exact abs_unpack_packComponents _ _ _ _

/-! ### Distances -/

theorem abs_unpack_sub (x y : Float.Model) : (x - y).unpack.abs = (y - x).unpack.abs := by
  show (UnpackedFloat.unpack _ (UnpackedFloat.pack _ (UnpackedFloat.sub _ x.unpack y.unpack))).abs =
    (UnpackedFloat.unpack _ (UnpackedFloat.pack _ (UnpackedFloat.sub _ y.unpack x.unpack))).abs
  rw [abs_unpack_pack, abs_sub_eq, ← abs_unpack_pack]

/-- The square of a difference does not depend on its direction. -/
theorem sub_mul_sub_comm (a b : Float) : (a - b) * (a - b) = (b - a) * (b - a) := by
  have hmul : ∀ x : Float.Model, x * x = .pack (x.unpack.abs.mul .binary64 x.unpack.abs) :=
    fun x => by
      rw [mul_abs_self]
      rfl
  show Float.ofModel ((a.toModel - b.toModel) * (a.toModel - b.toModel)) =
    Float.ofModel ((b.toModel - a.toModel) * (b.toModel - a.toModel))
  rw [hmul, hmul, abs_unpack_sub]

/-- Two points are as far apart from either end. -/
theorem Vec.norm_sub_comm (p q : Vec) : (p - q).norm = (q - p).norm := by
  show ((p.x - q.x) * (p.x - q.x) + (p.y - q.y) * (p.y - q.y)).sqrt =
    ((q.x - p.x) * (q.x - p.x) + (q.y - p.y) * (q.y - p.y)).sqrt
  rw [sub_mul_sub_comm p.x, sub_mul_sub_comm p.y]

end PlanarSketch
