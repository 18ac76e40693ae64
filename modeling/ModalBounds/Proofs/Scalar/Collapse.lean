import ModalBounds.Interval.Modal
import ModalBounds.Proofs.Scalar.Defined

/-!
# Almost equal doubles

The distance of two doubles is that of the two exchanged (`abs_sub_comm`): rounding does not look at
the sign. As the greater of two magnitudes does not depend on their order either, a double is almost
equal to another one if that is almost equal to it (`isAlmost_comm`). Bounds that are collapsed stay
as they are when they are collapsed again, in either order (`collapse_collapse`, `collapse_swap`):
they are equal or not almost equal, and the zero of a point is the positive one (`Collapsed`).
-/

namespace ModalBounds.Double

open Float.Model (UnpackedFloat Format)
open Float.Model.UnpackedFloat

/-! ### Magnitudes -/

theorem abs_unpack_packComponents {spec : Format} (s s' : Sign) (e : BitVec spec.exponentBits)
    (m : BitVec spec.mantissaBitsWithoutImplicit) :
    (unpack spec (packComponents spec s e m)).abs =
      (unpack spec (packComponents spec s' e m)).abs := by
  unfold unpack
  simp only [unpackExponent_packComponents, unpackMantissa_packComponents]
  split_ifs <;> rfl

theorem abs_unpack_pack {spec : Format} (f : UnpackedFloat) :
    (unpack spec (pack spec f)).abs = (unpack spec (pack spec f.abs)).abs := by
  cases f with
  | notANumber => rfl
  | infinity s => exact abs_unpack_packComponents ..
  | zero s => exact abs_unpack_packComponents ..
  | finite s m e hm =>
    unfold UnpackedFloat.abs pack
    dsimp only
    split_ifs
    · exact abs_unpack_packComponents ..
    · exact abs_unpack_packComponents ..
    · exact abs_unpack_packComponents ..

theorem abs_round {spec : Format} (s s' : Sign) (mantissa : ℕ) (exponent : ℤ) :
    (UnpackedFloat.round spec s mantissa exponent).abs =
      (UnpackedFloat.round spec s' mantissa exponent).abs := by
  unfold UnpackedFloat.round roundWithAccuracy
  dsimp only
  split_ifs <;> rfl

theorem abs_normalize_neg {spec : Format} (mantissa exponent : ℤ) (s : Sign) :
    (UnpackedFloat.normalize spec (-mantissa) exponent s).abs =
      (UnpackedFloat.normalize spec mantissa exponent s).abs := by
  unfold UnpackedFloat.normalize
  rcases lt_trichotomy mantissa 0 with h | rfl | h
  · rw [compare_lt_iff_lt.2 h, compare_gt_iff_gt.2 (neg_pos.2 h)]
    exact abs_round ..
  · rfl
  · rw [compare_gt_iff_gt.2 h, compare_lt_iff_lt.2 (neg_neg_iff_pos.2 h), neg_neg]
    exact abs_round ..

theorem abs_sub_comm_unpacked {spec : Format} {f g : UnpackedFloat} (hf : f.isFinite = true)
    (hg : g.isFinite = true) :
    (UnpackedFloat.sub spec f g).abs = (UnpackedFloat.sub spec g f).abs := by
  cases f with
  | notANumber | infinity => cases hf
  | zero s =>
    cases g with
    | notANumber | infinity => cases hg
    | zero s' => cases s <;> cases s' <;> rfl
    | finite => rfl
  | finite s m e hm =>
    cases g with
    | notANumber | infinity => cases hg
    | zero => rfl
    | finite s' m' e' hm' =>
      unfold UnpackedFloat.sub
      dsimp only
      rw [← abs_normalize_neg, neg_sub, min_comm]

theorem abs_sub_comm {a b : Float} (ha : a.isFinite = true) (hb : b.isFinite = true) :
    (a - b).abs = (b - a).abs := by
  have hsub : (UnpackedFloat.sub .binary64 a.toModel.unpack b.toModel.unpack).abs =
      (UnpackedFloat.sub .binary64 b.toModel.unpack a.toModel.unpack).abs :=
    abs_sub_comm_unpacked ha hb
  have habs : (unpack .binary64
      (pack .binary64 (UnpackedFloat.sub .binary64 a.toModel.unpack b.toModel.unpack))).abs =
      (unpack .binary64
        (pack .binary64 (UnpackedFloat.sub .binary64 b.toModel.unpack a.toModel.unpack))).abs := by
    rw [abs_unpack_pack, hsub, ← abs_unpack_pack]
  exact congrArg (fun f => Float.ofModel (.pack f)) habs

/-! ### The greater magnitude -/

theorem exists_compare {f g : UnpackedFloat} (hf : f ≠ .notANumber) (hg : g ≠ .notANumber) :
    ∃ o, f.compare g = some o ∧ g.compare f = some o.swap := by
  have hswap (e e' : ℤ) (m m' : ℕ) :
      (compare e' e).then (compare m' m) = ((compare e e').then (compare m m')).swap := by
    rw [Ordering.swap_then, ← Std.OrientedCmp.eq_swap, ← Std.OrientedCmp.eq_swap]
  cases f with
  | notANumber => contradiction
  | infinity s =>
    cases g with
    | notANumber => contradiction
    | infinity s' => cases s <;> cases s' <;> exact ⟨_, rfl, rfl⟩
    | zero | finite => cases s <;> exact ⟨_, rfl, rfl⟩
  | zero s =>
    cases g with
    | notANumber => contradiction
    | infinity s' => cases s' <;> exact ⟨_, rfl, rfl⟩
    | zero => exact ⟨_, rfl, rfl⟩
    | finite s' => cases s' <;> exact ⟨_, rfl, rfl⟩
  | finite s e m =>
    cases g with
    | notANumber => contradiction
    | infinity s' => cases s <;> cases s' <;> exact ⟨_, rfl, rfl⟩
    | zero => cases s <;> exact ⟨_, rfl, rfl⟩
    | finite s' =>
      cases s <;> cases s'
      · exact ⟨_, rfl, by rw [UnpackedFloat.compare, hswap]⟩
      · exact ⟨_, rfl, rfl⟩
      · exact ⟨_, rfl, rfl⟩
      · exact ⟨_, rfl, by rw [UnpackedFloat.compare, hswap]⟩

theorem lt_or_beq_or_gt {a b : Float} (ha : a.isNaN = false) (hb : b.isNaN = false) :
    a < b ∨ (a == b) = true ∨ b < a := by
  obtain ⟨o, ho, ho'⟩ := exists_compare (f := a.toModel.unpack) (g := b.toModel.unpack)
    (fun h => Bool.eq_false_iff.1 ha (isNaN_iff.2 h)) fun h =>
    Bool.eq_false_iff.1 hb (isNaN_iff.2 h)
  show decide ((UnpackedFloat.compare _ _ == some .lt) = true) = true ∨
    (UnpackedFloat.compare _ _ == some .eq) = true ∨
    decide ((UnpackedFloat.compare _ _ == some .lt) = true) = true
  rw [ho, ho']
  cases o <;> decide

theorem lt_asymm {a b : Float} (h : a < b) : ¬ b < a := by
  intro h'
  have hlt : (a.toModel.unpack.compare b.toModel.unpack == some .lt) = true :=
    of_decide_eq_true (by exact h)
  have hlt' : (b.toModel.unpack.compare a.toModel.unpack == some .lt) = true :=
    of_decide_eq_true (by exact h')
  have ha : a.toModel.unpack ≠ .notANumber := fun hnan => not_lt (.inl (isNaN_iff.2 hnan)) h
  have hb : b.toModel.unpack ≠ .notANumber := fun hnan => not_lt (.inr (isNaN_iff.2 hnan)) h
  obtain ⟨o, ho, ho'⟩ := exists_compare ha hb
  rw [ho] at hlt
  rw [ho'] at hlt'
  cases o <;> simp at hlt hlt'

theorem le_of_not_lt {a b : Float} (ha : a.isNaN = false) (hb : b.isNaN = false)
    (h : ¬ b < a) : a ≤ b := by
  obtain ⟨o, ho, ho'⟩ := exists_compare (f := a.toModel.unpack) (g := b.toModel.unpack)
    (fun h => Bool.eq_false_iff.1 ha (isNaN_iff.2 h)) fun h =>
    Bool.eq_false_iff.1 hb (isNaN_iff.2 h)
  have hgt : decide ((b.toModel.unpack.compare a.toModel.unpack == some .lt) = true) = false :=
    Bool.eq_false_iff.2 h
  show decide ((a.toModel.unpack.compare b.toModel.unpack).any (·.isLE) = true) = true
  rw [ho'] at hgt
  rw [ho]
  cases o with
  | lt | eq => rfl
  | gt => exact absurd hgt (by decide)

theorem unpackSign_pack_abs {spec : Format} (f : UnpackedFloat) :
    unpackSign (pack spec f.abs) = Sign.positive.toBitVec := by
  cases f with
  | notANumber | infinity | zero => exact unpackSign_packComponents ..
  | finite s m e hm =>
    unfold UnpackedFloat.abs pack
    dsimp only
    split_ifs
    · exact unpackSign_packComponents ..
    · exact unpackSign_packComponents ..
    · exact unpackSign_packComponents ..

theorem abs_ne_neg_zero (a : Float) : a.abs ≠ -0 := by
  intro h
  have hsign : @unpackSign .binary64 a.abs.toBits.toBitVec = Sign.positive.toBitVec :=
    unpackSign_pack_abs _
  rw [h] at hsign
  revert hsign
  decide

theorem isNaN_abs {a : Float} (h : a.isNaN = false) : a.abs.isNaN = false := by
  refine isNaN_ofModel_pack fun hnan => Bool.eq_false_iff.1 h (isNaN_iff.2 ?_)
  cases hu : a.toModel.unpack with
  | notANumber => rfl
  | infinity | zero | finite => rw [hu] at hnan; cases hnan

theorem isNaN_of_isFinite {a : Float} (h : a.isFinite = true) : a.isNaN = false := by
  cases hnan : a.isNaN with
  | false => rfl
  | true =>
    rw [isFinite_eq_false hnan] at h
    cases h

theorem eq_of_beq_abs {a b : Float} (h : (a.abs == b.abs) = true) : a.abs = b.abs := by
  obtain ⟨-, -, h | ⟨-, h⟩ | ⟨h, -⟩⟩ := Float.beq_iff_ne_nan_and_eq.1 h
  · exact h
  · exact absurd h (abs_ne_neg_zero b)
  · exact absurd h (abs_ne_neg_zero a)

theorem greatest_abs_comm {a b : Float} (ha : a.isNaN = false) (hb : b.isNaN = false) :
    greatest a.abs b.abs = greatest b.abs a.abs := by
  unfold greatest
  rw [isNaN_abs ha, isNaN_abs hb, Bool.false_or, Bool.false_or]
  rcases lt_or_beq_or_gt (isNaN_abs ha) (isNaN_abs hb) with h | h | h
  · rw [decide_eq_false (lt_asymm h), decide_eq_true h]
    rfl
  · rw [eq_of_beq_abs h]
  · rw [decide_eq_false (lt_asymm h), decide_eq_true h]
    rfl

/-! ### Almost equal doubles -/

theorem isAlmost_comm (a b : Float) : isAlmost a b = isAlmost b a := by
  have hbeq : (a == b) = (b == a) := BEq.comm
  have hboth : (Scalar.isFinite a && Scalar.isFinite b) =
      (Scalar.isFinite b && Scalar.isFinite a) := Bool.and_comm ..
  unfold isAlmost
  refine congrArg₂ (· || ·) hbeq ?_
  cases hfinite : Scalar.isFinite a && Scalar.isFinite b with
  | false => rw [← hboth, hfinite, Bool.false_and, Bool.false_and]
  | true =>
    obtain ⟨ha, hb⟩ := (Bool.and_eq_true ..).to_iff.1 hfinite
    have hdistance : Scalar.magnitude (a - b) = Scalar.magnitude (b - a) := abs_sub_comm ha hb
    have hgreater : @max Float Scalar.toMax (Scalar.magnitude a) (Scalar.magnitude b) =
        @max Float Scalar.toMax (Scalar.magnitude b) (Scalar.magnitude a) :=
      greatest_abs_comm (isNaN_of_isFinite ha) (isNaN_of_isFinite hb)
    rw [← hboth, hfinite, hdistance, hgreater]

theorem straddlesZero_comm (a b : Float) : straddlesZero a b = straddlesZero b a := Bool.or_comm ..

/-! ### Collapsed bounds -/

theorem isNaN_of_isAlmost {a b : Float} (h : isAlmost a b = true) :
    a.isNaN = false ∧ b.isNaN = false := by
  rcases (Bool.or_eq_true ..).to_iff.1 h with h | h
  · constructor
    · refine Bool.eq_false_iff.2 fun hnan => ?_
      rw [beq_eq_false (.inl hnan)] at h
      cases h
    · refine Bool.eq_false_iff.2 fun hnan => ?_
      rw [beq_eq_false (.inr hnan)] at h
      cases h
  · obtain ⟨hfinite, -⟩ := (Bool.and_eq_true ..).to_iff.1 h
    obtain ⟨ha, hb⟩ := (Bool.and_eq_true ..).to_iff.1 hfinite
    exact ⟨isNaN_of_isFinite ha, isNaN_of_isFinite hb⟩

theorem collapse_self {a : Float} (ha : a.isNaN = false) (h : straddlesZero a a = true → a = 0) :
    collapse a a = (a, a) := by
  have halmost : isAlmost a a = true := Bool.or_eq_true_iff.2 (.inl (beq_self ha))
  rw [collapse, if_pos halmost]
  split
  · rw [h ‹_›]
  · rfl

theorem eq_zero_of_beq {a : Float} (h : (a == 0) = true) : a = 0 ∨ a = -0 := by
  obtain ⟨-, -, h | ⟨h, -⟩ | ⟨h, -⟩⟩ := Float.beq_iff_ne_nan_and_eq.1 h
  · exact .inl h
  · exact .inl h
  · exact .inr h

theorem eq_zero_of_straddlesZero {a : Float} (h : straddlesZero a a = true) : a = 0 ∨ a = -0 := by
  simp only [straddlesZero, Bool.or_self, Bool.and_eq_true, decide_eq_true_eq] at h
  have hdefined : a.isNaN = false := Bool.eq_false_iff.2 fun hnan => not_le (.inl hnan) h.1
  obtain ⟨o, ho, ho'⟩ := exists_compare_zero hdefined
  have hge : ((0 : Float).toModel.unpack.compare a.toModel.unpack).any (·.isLE) = true :=
    of_decide_eq_true (by exact h.2)
  have hle : (a.toModel.unpack.compare (0 : Float).toModel.unpack).any (·.isLE) = true :=
    of_decide_eq_true (by exact h.1)
  have hbeq : (a == (0 : Float)) = true := by
    show (a.toModel.unpack.compare (0 : Float).toModel.unpack == some .eq) = true
    rw [ho] at hge
    rw [ho'] at hle ⊢
    cases o with
    | eq => rfl
    | lt | gt => simp at hge hle
  exact eq_zero_of_beq hbeq

theorem straddlesZero_of_self {a b : Float} (hb : b.isNaN = false) (h : straddlesZero a a = true) :
    straddlesZero a b = true := by
  simp only [straddlesZero, Bool.or_self, Bool.and_eq_true, decide_eq_true_eq] at h
  simp only [straddlesZero, Bool.or_eq_true, Bool.and_eq_true, decide_eq_true_eq]
  rcases nonneg_or_neg hb with hb | hb
  · exact .inl ⟨h.1, hb⟩
  · exact .inr ⟨le_of_lt hb, h.2⟩

theorem collapse_collapse (a b : Float) :
    collapse (collapse a b).1 (collapse a b).2 = collapse a b := by
  by_cases halmost : isAlmost a b = true
  · obtain ⟨ha, hb⟩ := isNaN_of_isAlmost halmost
    rw [collapse.eq_def a b, if_pos halmost]
    split
    · exact collapse_self rfl fun _ => rfl
    · rename_i hstraddles
      exact collapse_self ha fun h => absurd (straddlesZero_of_self hb h) hstraddles
  · have hself : collapse a b = (a, b) := if_neg halmost
    rw [hself, hself]

theorem collapse_swap {a b : Float} (h : collapse a b = (a, b)) : collapse b a = (b, a) := by
  unfold collapse at h ⊢
  rw [isAlmost_comm b a, straddlesZero_comm b a]
  split_ifs at h ⊢ with halmost hstraddles
  · cases h
    rfl
  · obtain ⟨-, rfl⟩ := Prod.mk.inj h
    rfl
  · rfl

/-- Bounds as collapsing leaves them. -/
structure Collapsed (a b : Float) : Prop where
  collapse_eq : collapse a b = (a, b)
  eq_or_not_almost : a = b ∨ isAlmost a b = false
  /-- Of the two zeros only the positive one is left. -/
  eq_zero : (a == 0) = true → (b == 0) = true → a = 0 ∧ b = 0

theorem Collapsed.of_collapse_eq {a b : Float} (h : collapse a b = (a, b)) : Collapsed a b where
  collapse_eq := h
  eq_or_not_almost := by
    rw [or_iff_not_imp_right, Bool.not_eq_false]
    intro halmost
    rw [collapse, if_pos halmost] at h
    -- both are zero now, or both are the lower one
    split at h <;> obtain ⟨ha, hb⟩ := Prod.mk.inj h
    · exact ha.symm.trans hb
    · exact hb
  eq_zero ha hb := by
    have hzeros : collapse a b = (0, 0) := by
      rcases eq_zero_of_beq ha with rfl | rfl <;> rcases eq_zero_of_beq hb with rfl | rfl <;> rfl
    obtain ⟨ha, hb⟩ := Prod.mk.inj (h.symm.trans hzeros)
    exact ⟨ha, hb⟩

end ModalBounds.Double
