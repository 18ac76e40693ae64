import ModalBounds.Proofs.Scalar.Defined
import ModalBounds.Proofs.Scalar.Rounding

/-!
# Doubles as whole numbers

A defined double stands for a whole number of units, an infinity for one far above all finite ones
(`HasUnits`). The order of doubles is the order of these numbers (`HasUnits.le_iff`), and a sum or a
difference is that of the numbers, rounded, unless two infinities cancel out (`HasUnits.add`,
`HasUnits.sub`). Rounding is monotone and keeps signs, so doubles inherit these laws from the whole
numbers.
-/

namespace ModalBounds.Double

open Float.Model (UnpackedFloat Format)
open Float.Model.UnpackedFloat (Sign)

/-! ### Rounding of signed numbers -/

/-- A whole number with a sign, rounded to 53 bits. -/
def roundSigned (z : ℤ) : ℤ := z.sign * roundUnits z.natAbs

/-- The least power of two that no finite double reaches, in units. -/
def overflow : ℤ := 2 ^ 2098

/-- The number that stands for infinity, with that for minus infinity far below zero. -/
def saturate (z : ℤ) :
    ℤ := if overflow ≤ z then 4 * overflow else if z ≤ -overflow then -(4 * overflow) else z

/-- The number that a double stands for after rounding. -/
def rounded (z : ℤ) : ℤ := saturate (roundSigned z)

section
variable {z w : ℤ}

theorem overflow_pos : 0 < overflow := by
  unfold overflow
  positivity

theorem roundSigned_natCast (n : ℕ) : roundSigned n = roundUnits n := by
  rcases n.eq_zero_or_pos with rfl | h
  · rfl
  · rw [roundSigned, Int.sign_eq_one_of_pos (by omega), one_mul, Int.natAbs_natCast]

theorem roundSigned_neg (z : ℤ) : roundSigned (-z) = -roundSigned z := by
  rw [roundSigned, roundSigned, Int.sign_neg, Int.natAbs_neg, neg_mul]

theorem roundSigned_pos (h : 0 < z) : 0 < roundSigned z := by
  obtain ⟨n, rfl⟩ := Int.eq_ofNat_of_zero_le h.le
  rw [roundSigned_natCast]
  have := roundUnits_pos (n := n) (by omega)
  omega

theorem roundSigned_mono : Monotone roundSigned := by
  have hnonneg {z w : ℤ} (hz : 0 ≤ z) (h : z ≤ w) : roundSigned z ≤ roundSigned w := by
    obtain ⟨n, rfl⟩ := Int.eq_ofNat_of_zero_le hz
    obtain ⟨m, rfl⟩ := Int.eq_ofNat_of_zero_le (hz.trans h)
    rw [roundSigned_natCast, roundSigned_natCast]
    exact_mod_cast roundUnits_mono (by omega)
  have hzero : roundSigned 0 = 0 := rfl
  intro z w h
  rcases le_total 0 z with hz | hz
  · exact hnonneg hz h
  · rcases le_total 0 w with hw | hw
    · -- zero lies between the two
      have hz' := hnonneg le_rfl (neg_nonneg.2 hz)
      have hw' := hnonneg le_rfl hw
      rw [roundSigned_neg] at hz'
      omega
    · have := hnonneg (neg_nonneg.2 hw) (neg_le_neg h)
      rw [roundSigned_neg, roundSigned_neg] at this
      omega

theorem saturate_mono : Monotone saturate := by
  intro z w h
  have := overflow_pos
  unfold saturate
  split_ifs <;> omega

theorem saturate_neg (z : ℤ) : saturate (-z) = -saturate z := by
  have := overflow_pos
  unfold saturate
  split_ifs <;> omega

theorem rounded_mono : Monotone rounded := saturate_mono.comp roundSigned_mono

theorem rounded_zero : rounded 0 = 0 := by
  have := overflow_pos
  show saturate 0 = 0
  unfold saturate
  split_ifs <;> omega

theorem rounded_pos (h : 0 < z) : 0 < rounded z := by
  have hpos := roundSigned_pos h
  have := overflow_pos
  unfold rounded saturate
  split_ifs <;> omega

theorem rounded_nonneg (h : 0 ≤ z) : 0 ≤ rounded z := by
  rw [← rounded_zero]
  exact rounded_mono h

theorem rounded_pos_iff : 0 < rounded z ↔ 0 < z := by
  refine ⟨fun h => ?_, rounded_pos⟩
  by_contra hle
  have := rounded_mono (Int.not_lt.1 hle)
  rw [rounded_zero] at this
  omega

theorem roundSigned_two_pow (n : ℕ) : roundSigned (2 ^ n) = 2 ^ n := by
  have hunits := roundUnits_mul_pow (m := 1) (by norm_num) n
  rw [one_mul] at hunits
  have hcast := roundSigned_natCast (2 ^ n)
  rw [hunits] at hcast
  exact_mod_cast hcast

theorem rounded_of_le (h : 2 * overflow ≤ z) : rounded z = 4 * overflow := by
  have hpow : roundSigned overflow = overflow := roundSigned_two_pow 2098
  have hle := roundSigned_mono (show overflow ≤ z by have := overflow_pos; omega)
  rw [hpow] at hle
  exact if_pos hle

end

/-! ### Unpacked numbers -/

/-- The number that an unpacked double stands for. -/
def unpackedUnits : UnpackedFloat → ℤ
  | .infinity s => s.apply (4 * overflow)
  | .notANumber => 0
  | .zero _ => 0
  | .finite s m e _ => s.apply (m * 2 ^ (e + 1074).toNat)

/-- The unpacked numbers of doubles. -/
inductive IsDouble : UnpackedFloat → Prop
  | infinity {s : Sign} : IsDouble (.infinity s)
  | notANumber : IsDouble .notANumber
  | zero {s : Sign} : IsDouble (.zero s)
  | finite {s : Sign} {m k : ℕ} {h : 0 < m} : IsCanonical m k → k ≤ 2045 →
    IsDouble (.finite s m (k - 1074) h)

section
variable {s : Sign} {m k : ℕ} {h : 0 < m}

@[simp] theorem unpackedUnits_finite :
    unpackedUnits (.finite s m (k - 1074) h) = s.apply (m * 2 ^ k) := by
  rw [unpackedUnits, Int.sub_add_cancel, Int.toNat_natCast]

theorem apply_neg (s : Sign) (z : ℤ) : (-s).apply z = -s.apply z := by
  cases s
  · exact (neg_neg z).symm
  · rfl

theorem toNat_append_one (m : BitVec 52) : (1#1 ++ m).toNat = 2 ^ 52 + m.toNat := by
  rw [BitVec.toNat_append, ← Nat.shiftLeft_add_eq_or_of_lt m.isLt]
  rfl

theorem isDouble_unpack (bits : BitVec 64) : IsDouble (UnpackedFloat.unpack .binary64 bits) := by
  unfold UnpackedFloat.unpack
  extract_lets mantissa exponentBits exponent signBit sign
  have hmantissa := mantissa.isLt
  have hexponent := exponentBits.isLt
  split
  · split
    · exact .infinity
    · exact .notANumber
  · rename_i hall
    have hlt : exponentBits.toNat < 2047 := by
      have hne : exponentBits.toNat ≠ 2047 := fun heq => hall (BitVec.eq_of_toNat_eq heq)
      simp only [Format.binary64] at hexponent
      omega
    split
    · split
      · exact .zero
      · rename_i hzero _
        -- subnormal numbers share the least exponent
        have hexp : exponent + 1 = ((0 : ℕ) : ℤ) - 1074 := by
          simp only [exponent, hzero]
          rfl
        simp only [hexp]
        exact .finite ⟨hmantissa.trans (by norm_num), .inl rfl⟩ (by norm_num)
    · rename_i hzero
      have hpos : 0 < exponentBits.toNat :=
        Nat.pos_of_ne_zero fun heq => hzero (BitVec.eq_of_toNat_eq heq)
      have hexp : exponent = ((exponentBits.toNat - 1 : ℕ) : ℤ) - 1074 := by
        have hbias : ((Format.binary64.exponentBias : ℤ) +
            Format.binary64.mantissaBitsWithoutImplicit) = 1075 := rfl
        simp only [exponent, hbias]
        omega
      simp only [hexp]
      refine .finite ⟨?_, .inr ?_⟩ (by omega) <;> rw [toNat_append_one]
      · simp only [Format.binary64] at hmantissa
        omega
      · omega

/-! ### Order -/

theorem mul_pow_lt_overflow (hc : IsCanonical m k) (hk : k ≤ 2045) :
    (m * 2 ^ k : ℤ) < overflow := by
  have hlt : m * 2 ^ k < 2 ^ 53 * 2 ^ k := Nat.mul_lt_mul_of_pos_right hc.lt (by positivity)
  have hpow : (2 : ℤ) ^ (53 + k) ≤ overflow := pow_le_pow_right₀ one_le_two (by omega)
  rw [← pow_add] at hlt
  zify at hlt
  exact hlt.trans_le hpow

theorem mul_pow_lt {m' k' : ℕ} (hc : IsCanonical m k) (hc' : IsCanonical m' k') (hk : k < k') :
    m * 2 ^ k < m' * 2 ^ k' := by
  have hm' := hc'.normal.resolve_left (Nat.ne_of_gt (Nat.zero_lt_of_lt hk))
  calc m * 2 ^ k < 2 ^ 53 * 2 ^ k := Nat.mul_lt_mul_of_pos_right hc.lt (by positivity)
    _ = 2 ^ (53 + k) := (pow_add ..).symm
    _ ≤ 2 ^ (52 + k') := Nat.pow_le_pow_right two_pos (by omega)
    _ = 2 ^ 52 * 2 ^ k' := pow_add ..
    _ ≤ m' * 2 ^ k' := Nat.mul_le_mul_right _ hm'

theorem compare_canonical {m' k' : ℕ} (hc : IsCanonical m k) (hc' : IsCanonical m' k') :
    (compare ((k : ℤ) - 1074) (k' - 1074)).then (compare m m') =
      compare (m * 2 ^ k : ℤ) (m' * 2 ^ k') := by
  rcases lt_trichotomy k k' with hlt | rfl | hgt
  · have hunits : (m * 2 ^ k : ℤ) < m' * 2 ^ k' := by exact_mod_cast mul_pow_lt hc hc' hlt
    rw [compare_lt_iff_lt.2 hunits, compare_lt_iff_lt.2 (show (k : ℤ) - 1074 < k' - 1074 by omega)]
    rfl
  · have hpow : (0 : ℤ) < 2 ^ k := by positivity
    rw [compare_eq_iff_eq.2 rfl]
    show compare m m' = _
    rcases lt_trichotomy m m' with hlt | rfl | hgt
    · rw [compare_lt_iff_lt.2 hlt, compare_lt_iff_lt.2 (by gcongr)]
    · rw [compare_eq_iff_eq.2 rfl, compare_eq_iff_eq.2 rfl]
    · rw [compare_gt_iff_gt.2 hgt, compare_gt_iff_gt.2 (by gcongr)]
  · have hunits : (m' * 2 ^ k' : ℤ) < m * 2 ^ k := by exact_mod_cast mul_pow_lt hc' hc hgt
    rw [compare_gt_iff_gt.2 hunits, compare_gt_iff_gt.2 (show (k' : ℤ) - 1074 < k - 1074 by omega)]
    rfl

end

/-- Only infinities stand for numbers beyond the overflow. -/
theorem IsDouble.units_lt {f : UnpackedFloat} (hf : IsDouble f) (h : ∀ s, f ≠ .infinity s) :
    -overflow < unpackedUnits f ∧ unpackedUnits f < overflow := by
  have hpos := overflow_pos
  cases hf with
  | infinity => exact absurd rfl (h _)
  | notANumber | zero => exact ⟨neg_neg_of_pos hpos, hpos⟩
  | @finite s m k hm hc hk =>
    have hlt := mul_pow_lt_overflow hc hk
    have hnonneg : (0 : ℤ) ≤ m * 2 ^ k := by positivity
    rw [unpackedUnits_finite]
    cases s <;> simp only [Sign.apply] <;> omega

theorem units_positive {m : ℕ} {e : ℤ} {h : 0 < m} :
    0 < unpackedUnits (.finite .positive m e h) := by
  show (0 : ℤ) < m * 2 ^ (e + 1074).toNat
  positivity

theorem units_negative {m : ℕ} {e : ℤ} {h : 0 < m} : unpackedUnits (.finite .negative m e h) < 0 :=
  neg_neg_of_pos (units_positive (h := h))

theorem compare_neg (a b : ℤ) : compare (-a) (-b) = (compare a b).swap := by
  rcases lt_trichotomy a b with h | rfl | h
  · rw [compare_lt_iff_lt.2 h, compare_gt_iff_gt.2 (neg_lt_neg h)]
    rfl
  · rw [compare_eq_iff_eq.2 rfl, compare_eq_iff_eq.2 rfl]
    rfl
  · rw [compare_gt_iff_gt.2 h, compare_lt_iff_lt.2 (neg_lt_neg h)]
    rfl

/-- Numbers compare as the units do. -/
theorem compare_unpacked {f g : UnpackedFloat} (hf : IsDouble f) (hg : IsDouble g)
    (hf' : f ≠ .notANumber)
    (hg' : g ≠ .notANumber) : f.compare g = some (compare (unpackedUnits f) (unpackedUnits g)) := by
  have hpos := overflow_pos
  have hinf : unpackedUnits (.infinity .positive) = 4 * overflow := rfl
  have hinf' : unpackedUnits (.infinity .negative) = -(4 * overflow) := rfl
  have hlt {a b : ℤ} (h : a < b) : some Ordering.lt = some (compare a b) := by
    rw [compare_lt_iff_lt.2 h]
  have hgt {a b : ℤ} (h : b < a) : some Ordering.gt = some (compare a b) := by
    rw [compare_gt_iff_gt.2 h]
  have heq {a b : ℤ} (h : a = b) : some Ordering.eq = some (compare a b) := by
    rw [compare_eq_iff_eq.2 h]
  -- infinities stand beyond all units, zeros at none; two finite numbers compare by their parts
  fun_cases UnpackedFloat.compare f g with
  | case1 => exact absurd rfl hf'
  | case2 => exact absurd rfl hg'
  | case3 s t =>
    cases s <;> cases t
    · exact heq rfl
    · exact hlt (by omega)
    · exact hgt (by omega)
    · exact heq rfl
  | case4 _ _ h =>
    have := hg.units_lt h
    exact hgt (by omega)
  | case5 _ _ h =>
    have := hg.units_lt h
    exact hlt (by omega)
  | case6 _ _ h =>
    have := hf.units_lt h
    exact hlt (by omega)
  | case7 _ _ h =>
    have := hf.units_lt h
    exact hgt (by omega)
  | case8 => exact hgt units_positive
  | case9 => exact hlt units_negative
  | case10 => exact hlt units_positive
  | case11 => exact hgt units_negative
  | case12 => exact heq rfl
  | case13 =>
    cases hf with
    | finite hc =>
      cases hg with
      | finite hc' =>
        rw [compare_canonical hc hc', unpackedUnits_finite, unpackedUnits_finite, ← compare_neg]
        rfl
  | case14 => exact hlt (units_negative.trans units_positive)
  | case15 => exact hgt (units_negative.trans units_positive)
  | case16 =>
    cases hf with
    | finite hc =>
      cases hg with
      | finite hc' =>
        rw [compare_canonical hc hc', unpackedUnits_finite, unpackedUnits_finite]
        rfl

/-! ### Packing -/

/-- A number of 53 bits, or an infinity. -/
inductive IsRounded : UnpackedFloat → Prop
  | infinity {s : Sign} : IsRounded (.infinity s)
  | zero {s : Sign} : IsRounded (.zero s)
  | finite {s : Sign} {m k : ℕ} {h : 0 < m} : IsCanonical m k → IsRounded (.finite s m (k - 1074) h)

theorem IsDouble.isRounded {f : UnpackedFloat} (hf : IsDouble f) (h : f ≠ .notANumber) :
    IsRounded f := by
  cases hf with
  | infinity => exact .infinity
  | notANumber => exact absurd rfl h
  | zero => exact .zero
  | finite hc => exact .finite hc

theorem unpack_packedInfinity (s : Sign) :
    UnpackedFloat.unpack .binary64 (UnpackedFloat.packedInfinity .binary64 s) = .infinity s := by
  simp [UnpackedFloat.unpack, UnpackedFloat.packedInfinity]

section
variable (s : Sign) {m k : ℕ} (h : 0 < m)

theorem unpack_normal (hlt : m < 2 ^ 53) (hle : 2 ^ 52 ≤ m) (hk : k ≤ 2045) :
    UnpackedFloat.unpack .binary64
        (UnpackedFloat.packComponents .binary64 s (BitVec.ofNat 11 (k + 1)) (BitVec.ofNat 52 m)) =
      .finite s m (k - 1074) h := by
  have hfield : (BitVec.ofNat 11 (k + 1)).toNat = k + 1 := by
    rw [BitVec.toNat_ofNat, Nat.mod_eq_of_lt (by omega)]
  have hall : BitVec.ofNat 11 (k + 1) ≠ -1#11 := fun heq => by
    have hnat := congrArg BitVec.toNat heq
    rw [hfield] at hnat
    simp at hnat
    omega
  have hzero : BitVec.ofNat 11 (k + 1) ≠ 0#11 := fun heq => by
    have hnat := congrArg BitVec.toNat heq
    rw [hfield] at hnat
    simp at hnat
  have hmantissa : (1#1 ++ BitVec.ofNat 52 m).toNat = m := by
    rw [toNat_append_one, BitVec.toNat_ofNat]
    omega
  have hexponent : ((k + 1 : ℕ) : ℤ) -
      (Format.binary64.exponentBias + Format.binary64.mantissaBitsWithoutImplicit) =
      k - 1074 := by
    show ((k + 1 : ℕ) : ℤ) - ((1023 : ℕ) + (52 : ℕ)) = k - 1074
    omega
  simp only [UnpackedFloat.unpack, UnpackedFloat.unpackExponent_packComponents,
    UnpackedFloat.unpackMantissa_packComponents, UnpackedFloat.unpackSign_packComponents,
    Sign.ofBitVec_toBitVec, if_neg hall, if_neg hzero, hfield, hmantissa, hexponent]

theorem unpack_subnormal (hlt : m < 2 ^ 52) :
    UnpackedFloat.unpack .binary64
      (UnpackedFloat.packComponents .binary64 s 0 (BitVec.ofNat 52 m)) =
      .finite s m ((0 : ℕ) - 1074) h := by
  have hfield : (BitVec.ofNat 52 m).toNat = m := by rw [BitVec.toNat_ofNat, Nat.mod_eq_of_lt hlt]
  have hzero : BitVec.ofNat 52 m ≠ 0#52 := fun heq => by
    have hnat := congrArg BitVec.toNat heq
    rw [hfield] at hnat
    exact h.ne' hnat
  have hall : (0 : BitVec 11) ≠ -1#11 := by decide
  simp only [UnpackedFloat.unpack, UnpackedFloat.unpackExponent_packComponents,
    UnpackedFloat.unpackMantissa_packComponents, UnpackedFloat.unpackSign_packComponents,
    Sign.ofBitVec_toBitVec, if_neg hall, hfield]
  rw [dif_neg hzero]
  rfl

/-- A number is unpacked as it was packed, unless it is too large. -/
theorem unpack_pack_finite (hc : IsCanonical m k) :
    UnpackedFloat.unpack .binary64 (UnpackedFloat.pack .binary64 (.finite s m (k - 1074) h)) =
      if k ≤ 2045 then .finite s m (k - 1074) h else .infinity s := by
  have hbiased : ((k : ℤ) - 1074 + Format.binary64.exponentBias +
      Format.binary64.mantissaBitsWithoutImplicit).toNat =
      k + 1 := by
    show ((k : ℤ) - 1074 + (1023 : ℕ) + (52 : ℕ)).toNat = k + 1
    omega
  -- normal numbers, from which the leading bit is left out, are those of 53 bits
  have hbits : m.log2 + 1 = Format.binary64.mantissaBits ↔ 2 ^ 52 ≤ m := by
    rw [← Nat.le_log2 h.ne']
    have hlog := (Nat.log2_lt h.ne').2 hc.lt
    show m.log2 + 1 = 53 ↔ _
    omega
  rw [UnpackedFloat.pack]
  simp only [hbiased, hbits]
  split
  · rename_i hover
    have hbig : 2048 ≤ k + 1 + 1 := hover
    rw [unpack_packedInfinity, if_neg (by omega)]
  · rename_i hover
    have hsmall : ¬ 2048 ≤ k + 1 + 1 := hover
    have hk : k ≤ 2045 := by omega
    rw [if_pos hk]
    split
    · rename_i hle
      exact unpack_normal s h hc.lt hle hk
    · rename_i hle
      obtain rfl := hc.normal.resolve_right hle
      exact unpack_subnormal s h (Nat.lt_of_not_le hle)

end

theorem saturate_apply (s : Sign) (z : ℤ) : saturate (s.apply z) = s.apply (saturate z) := by
  cases s
  · exact saturate_neg z
  · rfl

theorem unpackedUnits_pack {f : UnpackedFloat} (hf : IsRounded f) :
    unpackedUnits (UnpackedFloat.unpack .binary64 (UnpackedFloat.pack .binary64 f)) =
      saturate (unpackedUnits f) := by
  have hpos := overflow_pos
  cases hf with
  | @infinity s =>
    rw [UnpackedFloat.pack, unpack_packedInfinity, unpackedUnits, saturate_apply, saturate,
      if_pos (by omega)]
  | @zero s =>
    rw [UnpackedFloat.pack, UnpackedFloat.unpack_packedZero]
    exact rounded_zero.symm
  | @finite s m k h hc =>
    rw [unpack_pack_finite s h hc, unpackedUnits_finite, saturate_apply]
    split
    · rename_i hk
      have hlt := mul_pow_lt_overflow hc hk
      have hnonneg : (0 : ℤ) ≤ m * 2 ^ k := by positivity
      rw [unpackedUnits_finite, saturate, if_neg (by omega), if_neg (by omega)]
    · rename_i hk
      have hle : overflow ≤ (m * 2 ^ k : ℤ) := by
        have hm := hc.normal.resolve_left (by omega)
        calc overflow ≤ 2 ^ (52 + k) := pow_le_pow_right₀ one_le_two (by omega)
          _ = 2 ^ 52 * 2 ^ k := pow_add ..
          _ ≤ m * 2 ^ k := by gcongr; exact_mod_cast hm
      rw [saturate, if_pos hle]
      rfl

/-! ### Sums -/

theorem roundSigned_apply (s : Sign) (z : ℤ) :
    roundSigned (s.apply z) = s.apply (roundSigned z) := by
  cases s
  · exact roundSigned_neg z
  · rfl

theorem rounded_apply (s : Sign) (z : ℤ) : rounded (s.apply z) = s.apply (rounded z) := by
  rw [rounded, roundSigned_apply, saturate_apply]
  rfl

theorem apply_mul (s : Sign) (z w : ℤ) : s.apply (z * w) = s.apply z * w := by
  cases s
  · exact (neg_mul z w).symm
  · rfl

theorem normalize_eq (z : ℤ) (k : ℕ) (s : Sign) :
    IsRounded (UnpackedFloat.normalize .binary64 z (k - 1074) s) ∧
      unpackedUnits (UnpackedFloat.normalize .binary64 z (k - 1074) s) =
        roundSigned (z * 2 ^ k) := by
  have hround (s : Sign) {m : ℕ} (hm : m ≠ 0) :
      IsRounded (UnpackedFloat.round .binary64 s m (k - 1074)) ∧
      unpackedUnits (UnpackedFloat.round .binary64 s m (k - 1074)) =
        roundSigned (s.apply m * 2 ^ k) := by
    obtain ⟨m', k', h, heq, hc, hunits⟩ := round_eq s (k := k) hm
    have hcast := roundSigned_natCast (m * 2 ^ k)
    rw [← hunits] at hcast
    push_cast at hcast
    rw [heq, ← apply_mul, roundSigned_apply, hcast]
    exact ⟨.finite hc, unpackedUnits_finite⟩
  -- the sign is taken off before the magnitude is rounded
  rcases lt_trichotomy z 0 with hz | rfl | hz
  · have happly : Sign.negative.apply ((-z).toNat : ℤ) = z := by
      show -((-z).toNat : ℤ) = z
      omega
    have h := hround .negative (m := (-z).toNat) (by omega)
    rw [happly] at h
    rw [UnpackedFloat.normalize, compare_lt_iff_lt.2 hz]
    exact h
  · rw [UnpackedFloat.normalize, compare_eq_iff_eq.2 rfl, zero_mul]
    exact ⟨.zero, rfl⟩
  · have happly : Sign.positive.apply (z.toNat : ℤ) = z := by
      show (z.toNat : ℤ) = z
      omega
    have h := hround .positive (m := z.toNat) (by omega)
    rw [happly] at h
    rw [UnpackedFloat.normalize, compare_gt_iff_gt.2 hz]
    exact h

theorem IsDouble.saturate_units {f : UnpackedFloat} (hf : IsDouble f) :
    saturate (unpackedUnits f) = unpackedUnits f := by
  have hpos := overflow_pos
  by_cases hinf : ∃ s, f = .infinity s
  · obtain ⟨s, rfl⟩ := hinf
    rw [unpackedUnits, saturate_apply, saturate, if_pos (by omega)]
  · have hlt := hf.units_lt (not_exists.1 hinf)
    rw [saturate, if_neg (by omega), if_neg (by omega)]

theorem IsDouble.rounded_units {f : UnpackedFloat} (hf : IsDouble f) :
    rounded (unpackedUnits f) = unpackedUnits f := by
  have hpos := overflow_pos
  have hsaturate := hf.saturate_units
  cases hf with
  | infinity => rw [unpackedUnits, rounded_apply, rounded_of_le (by omega)]
  | notANumber | zero => exact rounded_zero
  | @finite s m k h hc =>
    have hcast := roundSigned_natCast (m * 2 ^ k)
    rw [roundUnits_mul_pow hc.lt] at hcast
    push_cast at hcast
    have hsigned :
        roundSigned (unpackedUnits (.finite s m (k - 1074) h)) =
          unpackedUnits (.finite s m (k - 1074) h) := by
      rw [unpackedUnits_finite, roundSigned_apply, hcast]
    rwa [rounded, hsigned]

theorem rounded_infinity_add (s : Sign) {z : ℤ} (h : -overflow ≤ s.apply z) :
    rounded (unpackedUnits (.infinity s) + z) = saturate (unpackedUnits (.infinity s)) := by
  have hpos := overflow_pos
  have hself : unpackedUnits (.infinity s) + z = s.apply (4 * overflow + s.apply z) := by
    cases s
    · show -(4 * overflow) + z = -(4 * overflow + -z)
      omega
    · rfl
  rw [hself, rounded_apply, rounded_of_le (by omega), unpackedUnits, saturate_apply, saturate,
    if_pos (by omega)]

theorem infinities_cancel {s t : Sign} (h : ¬ (s == t) = true) :
    unpackedUnits (.infinity s) + unpackedUnits (.infinity t) = 0 := by
  cases s <;> cases t
  · exact absurd rfl h
  · exact neg_add_cancel _
  · exact add_neg_cancel _
  · exact absurd rfl h

theorem sum_mul_two_pow (s₁ s₂ : Sign) (m₁ k₁ m₂ k₂ : ℕ) :
    (s₁.apply (m₁ * 2 ^ (k₁ - min k₁ k₂) : ℕ) + s₂.apply (m₂ * 2 ^ (k₂ - min k₁ k₂) : ℕ)) *
      2 ^ min k₁ k₂ =
      s₁.apply (m₁ * 2 ^ k₁) + s₂.apply (m₂ * 2 ^ k₂) := by
  have hplace (s : Sign) (m : ℕ) {k : ℕ} (h : min k₁ k₂ ≤ k) :
      s.apply ((m * 2 ^ (k - min k₁ k₂) : ℕ) : ℤ) * 2 ^ min k₁ k₂ = s.apply (m * 2 ^ k) := by
    push_cast
    rw [← apply_mul, mul_assoc, ← pow_add, Nat.sub_add_cancel h]
  rw [add_mul, hplace s₁ m₁ (min_le_left ..), hplace s₂ m₂ (min_le_right ..)]

/-- A sum is the rounded sum, unless two infinities cancel out. -/
theorem unpacked_add {f g : UnpackedFloat} (hf : IsDouble f) (hg : IsDouble g)
    (hf' : f ≠ .notANumber)
    (hg' : g ≠ .notANumber) (h : f.isFinite = true ∨ unpackedUnits f + unpackedUnits g ≠ 0) :
    IsRounded (UnpackedFloat.add .binary64 f g) ∧
      saturate (unpackedUnits (UnpackedFloat.add .binary64 f g)) =
        rounded (unpackedUnits f + unpackedUnits g) := by
  have hpos := overflow_pos
  fun_cases UnpackedFloat.add .binary64 f g with
  | case1 => exact absurd rfl hf'
  | case2 => exact absurd rfl hg'
  | case3 s t hst =>
    obtain rfl := eq_of_beq hst
    refine ⟨.infinity, (rounded_infinity_add s ?_).symm⟩
    cases s <;> simp only [unpackedUnits, Sign.apply] <;> omega
  | case4 s t hst =>
    rcases h with hfinite | hsum
    · cases hfinite
    · exact absurd (infinities_cancel hst) hsum
  | case5 s _ _ hinf =>
    have hlt := hg.units_lt hinf
    refine ⟨.infinity, (rounded_infinity_add s ?_).symm⟩
    cases s <;> simp only [Sign.apply] <;> omega
  | case6 _ s _ hinf =>
    have hlt := hf.units_lt hinf
    rw [add_comm]
    refine ⟨.infinity, (rounded_infinity_add s ?_).symm⟩
    cases s <;> simp only [Sign.apply] <;> omega
  -- zeros of either sign
  | case7 | case8 =>
    refine ⟨.zero, ?_⟩
    show saturate 0 = rounded (0 + 0)
    rw [add_zero, rounded_zero]
    exact (IsDouble.zero (s := .positive)).saturate_units
  | case9 =>
    refine ⟨hg.isRounded hg', ?_⟩
    show _ = rounded (0 + _)
    rw [zero_add, hg.saturate_units, hg.rounded_units]
  | case10 =>
    refine ⟨hf.isRounded hf', ?_⟩
    show _ = rounded (_ + 0)
    rw [add_zero, hf.saturate_units, hf.rounded_units]
  -- two finite numbers are brought to the lesser exponent, added as integers and rounded once
  | case11 s₁ m₁ e₁ h₁ s₂ m₂ e₂ h₂ =>
    rename_i e m₁' _ hm₁ m₂' _ hm₂ z
    cases hf with
    | @finite _ _ k₁ =>
      cases hg with
      | @finite _ _ k₂ =>
        have he : e = (min k₁ k₂ : ℕ) - 1074 := by omega
        rw [he, decreaseExponent_eq] at hm₁ hm₂
        obtain ⟨rfl, -⟩ := Prod.mk.inj hm₁
        obtain ⟨rfl, -⟩ := Prod.mk.inj hm₂
        obtain ⟨hrounded, hunits⟩ := normalize_eq z (min k₁ k₂) .positive
        rw [sum_mul_two_pow] at hunits
        rw [he]
        refine ⟨hrounded, ?_⟩
        rw [hunits, unpackedUnits_finite, unpackedUnits_finite]
        rfl

theorem IsDouble.neg {f : UnpackedFloat} (hf : IsDouble f) : IsDouble f.neg := by
  cases hf with
  | infinity => exact .infinity
  | notANumber => exact .notANumber
  | zero => exact .zero
  | finite hc hk => exact .finite hc hk

theorem unpackedUnits_neg (f : UnpackedFloat) : unpackedUnits f.neg = -unpackedUnits f := by
  cases f with
  | infinity | finite => exact apply_neg ..
  | notANumber | zero => rfl

theorem unpacked_sub (spec : Format) (f g : UnpackedFloat) :
    UnpackedFloat.sub spec f g = UnpackedFloat.add spec f g.neg := by
  have hsub (s₁ s₂ : Sign) (m₁ m₂ : ℕ) : s₁.apply (m₁ : ℤ) - s₂.apply m₂ =
      s₁.apply (m₁ : ℤ) + (-s₂).apply m₂ := by
    rw [apply_neg, sub_eq_add_neg]
  cases f with
  | notANumber => rfl
  | infinity | zero => cases g <;> rfl
  | finite =>
    cases g with
    | infinity | zero | notANumber => rfl
    | finite => simp only [UnpackedFloat.sub, UnpackedFloat.add, UnpackedFloat.neg, hsub]

/-! ### Doubles -/

/-- The number of units that a double stands for. -/
def units (a : Float) : ℤ := unpackedUnits a.toModel.unpack

theorem isDouble (a : Float) : IsDouble a.toModel.unpack := isDouble_unpack _

/-- `a` is defined and stands for `n` units. -/
structure HasUnits (a : Float) (n : ℤ) : Prop where
  defined : a.isNaN = false
  units_eq : units a = n

section
variable {a b : Float} {n m : ℤ}

theorem hasUnits_units (h : a.isNaN = false) : HasUnits a (units a) := ⟨h, rfl⟩

theorem hasUnits_zero : HasUnits 0 0 := ⟨rfl, rfl⟩

theorem defined_of_lt (h : a < b) : a.isNaN = false ∧ b.isNaN = false := by
  simp only [← Bool.not_eq_true]
  exact ⟨fun ha => not_lt (.inl ha) h, fun hb => not_lt (.inr hb) h⟩

theorem defined_of_le (h : a ≤ b) : a.isNaN = false ∧ b.isNaN = false := by
  simp only [← Bool.not_eq_true]
  exact ⟨fun ha => not_le (.inl ha) h, fun hb => not_le (.inr hb) h⟩

namespace HasUnits

theorem unpack_ne_notANumber (h : HasUnits a n) : a.toModel.unpack ≠ .notANumber := by
  intro hu
  have hdefined := h.defined
  rw [isNaN_iff.2 hu] at hdefined
  cases hdefined

theorem rounded_eq (h : HasUnits a n) : rounded n = n := by
  rw [← h.units_eq]
  exact (isDouble a).rounded_units

theorem compare_eq (ha : HasUnits a n) (hb : HasUnits b m) :
    a.toModel.unpack.compare b.toModel.unpack = some (compare n m) := by
  rw [← ha.units_eq, ← hb.units_eq]
  exact compare_unpacked (isDouble a) (isDouble b) ha.unpack_ne_notANumber hb.unpack_ne_notANumber

theorem lt_iff (ha : HasUnits a n) (hb : HasUnits b m) : a < b ↔ n < m := by
  show decide ((a.toModel.unpack.compare b.toModel.unpack == some .lt) = true) = true ↔ _
  rw [ha.compare_eq hb, decide_eq_true_iff, beq_iff_eq, Option.some_inj, compare_lt_iff_lt]

theorem le_iff (ha : HasUnits a n) (hb : HasUnits b m) : a ≤ b ↔ n ≤ m := by
  show decide ((a.toModel.unpack.compare b.toModel.unpack).any (·.isLE) = true) = true ↔ _
  rw [ha.compare_eq hb, decide_eq_true_iff]
  exact Ordering.isLE_iff_ne_gt.trans compare_le_iff_le

theorem beq_iff (ha : HasUnits a n) (hb : HasUnits b m) : (a == b) = true ↔ n = m := by
  show (a.toModel.unpack.compare b.toModel.unpack == some .eq) = true ↔ _
  rw [ha.compare_eq hb, beq_iff_eq, Option.some_inj, compare_eq_iff_eq]

theorem isFinite (h : HasUnits a 0) : a.isFinite = true := by
  have hpos := overflow_pos
  have hunits : unpackedUnits a.toModel.unpack = 0 := h.units_eq
  have hnan := h.unpack_ne_notANumber
  show a.toModel.unpack.isFinite = true
  cases hu : a.toModel.unpack with
  | notANumber => exact absurd hu hnan
  | infinity s =>
    rw [hu, unpackedUnits] at hunits
    cases s <;> simp only [Sign.apply] at hunits <;> omega
  | zero | finite => rfl

theorem ofModel_add {f g : UnpackedFloat} (hf : IsDouble f) (hg : IsDouble g)
    (hf' : f ≠ .notANumber)
    (hg' : g ≠ .notANumber) (h : f.isFinite = true ∨ unpackedUnits f + unpackedUnits g ≠ 0) :
    HasUnits (Float.ofModel (.pack (.add .binary64 f g)))
      (rounded (unpackedUnits f + unpackedUnits g)) := by
  obtain ⟨hrounded, hunits⟩ := unpacked_add hf hg hf' hg' h
  rw [← hunits]
  refine ⟨isNaN_ofModel_pack ?_, unpackedUnits_pack hrounded⟩
  intro hnan
  rw [hnan] at hrounded
  cases hrounded

/-- A sum is the rounded sum of the units, unless two infinities cancel out. -/
theorem add (ha : HasUnits a n) (hb : HasUnits b m) (h : a.isFinite = true ∨ n + m ≠ 0) :
    HasUnits (a + b) (rounded (n + m)) := by
  obtain ⟨-, rfl⟩ := id ha
  obtain ⟨-, rfl⟩ := id hb
  exact ofModel_add (isDouble a) (isDouble b) ha.unpack_ne_notANumber hb.unpack_ne_notANumber h

/-- A difference is the rounded difference of the units, unless two infinities cancel out. -/
theorem sub (ha : HasUnits a n) (hb : HasUnits b m) (h : a.isFinite = true ∨ n - m ≠ 0) :
    HasUnits (a - b) (rounded (n - m)) := by
  have hneg : b.toModel.unpack.neg ≠ .notANumber := by
    intro hneg
    cases hu : b.toModel.unpack with
    | notANumber => exact hb.unpack_ne_notANumber hu
    | infinity | zero | finite => rw [hu] at hneg; cases hneg
  obtain ⟨-, rfl⟩ := id ha
  obtain ⟨-, rfl⟩ := id hb
  have hunits : units a - units b =
      unpackedUnits a.toModel.unpack + unpackedUnits b.toModel.unpack.neg := by
    rw [unpackedUnits_neg]
    exact sub_eq_add_neg ..
  rw [hunits] at h ⊢
  have hadd := ofModel_add (isDouble a) (isDouble b).neg ha.unpack_ne_notANumber hneg h
  rw [← unpacked_sub] at hadd
  exact hadd

theorem add_of_nonneg (ha : HasUnits a n) (hb : HasUnits b m) (hn : 0 ≤ n) (hm : 0 ≤ m) :
    HasUnits (a + b) (rounded (n + m)) := by
  refine ha.add hb ?_
  rcases hn.eq_or_lt with rfl | hpos
  · exact .inl ha.isFinite
  · exact .inr (by omega)

theorem greatest_zero (h : HasUnits a n) : HasUnits (greatest 0 a) (max 0 n) := by
  have hlt : a < 0 ↔ n < 0 := h.lt_iff hasUnits_zero
  rw [greatest, h.defined, Bool.false_or]
  by_cases hneg : a < 0
  · rw [if_pos (decide_eq_true hneg), max_eq_left (hlt.1 hneg).le]
    exact hasUnits_zero
  · rw [if_neg (by simpa using hneg), max_eq_right (Int.not_lt.1 (mt hlt.2 hneg))]
    exact h

end HasUnits

end

end ModalBounds.Double
