import ModalBounds.Proofs.Scalar.Undefined

/-!
# Numbers that are defined

Negation keeps a double defined (`Double.isNaN_neg_eq`), and so does rounding from a decimal
(`Double.isNaN_ofDecimal`). A defined double equals itself and lies on one side of zero or on both.
-/

namespace ModalBounds.Double

open Float.Model (UnpackedFloat Format)

/-! ### Bits -/

theorem isNaNBits_pack {spec : Format} {f : UnpackedFloat} (h : f ≠ .notANumber) :
    UnpackedFloat.isNaNBits (UnpackedFloat.pack spec f) = false := by
  rw [UnpackedFloat.isNaNBits, decide_eq_false_iff_not]
  rintro ⟨hexponent, hmantissa⟩
  cases f with
  | notANumber => exact h rfl
  | infinity => simp [UnpackedFloat.pack, UnpackedFloat.packedInfinity] at hmantissa
  | zero => simp [UnpackedFloat.pack, UnpackedFloat.packedZero] at hmantissa
  | finite s m e hm =>
    unfold UnpackedFloat.pack at hexponent hmantissa
    extract_lets at hexponent hmantissa
    split at hexponent
    · simp [UnpackedFloat.packedInfinity, *] at hmantissa
    · -- the exponent of a number that does not overflow is less than that of an infinity
      split at hexponent
      · rw [UnpackedFloat.unpackExponent_packComponents, BitVec.neg_one_eq_allOnes,
          ← BitVec.toNat_inj, BitVec.toNat_allOnes, BitVec.toNat_ofNat,
          Nat.mod_eq_of_lt (by omega)] at hexponent
        omega
      · rw [UnpackedFloat.unpackExponent_packComponents] at hexponent
        simp [Nat.pos_iff_ne_zero.1 spec.he] at hexponent

theorem isNaN_ofModel_pack {f : UnpackedFloat} (h : f ≠ .notANumber) :
    (Float.ofModel (.pack f)).isNaN = false := by
  have hbits : UnpackedFloat.isNaNBits (UnpackedFloat.pack .binary64 f) = false := isNaNBits_pack h
  rw [Bool.eq_false_iff, ne_eq, isNaN_iff]
  intro hnan
  have hpack : UnpackedFloat.pack .binary64 f = UnpackedFloat.packedNaN .binary64 :=
    (UnpackedFloat.unpack_eq_notANumber_iff_of_valid UnpackedFloat.valid_pack).1 hnan
  rw [hpack, UnpackedFloat.isNaNBits_packedNaN] at hbits
  cases hbits

theorem isNaN_neg_eq (a : Float) : (-a).isNaN = a.isNaN := by
  cases ha : a.isNaN with
  | true => exact isNaN_neg ha
  | false =>
    refine isNaN_ofModel_pack fun h => Bool.eq_false_iff.1 ha (isNaN_iff.2 ?_)
    cases hu : a.toModel.unpack with
    | notANumber => rfl
    | infinity | zero | finite => rw [hu] at h; cases h

theorem isNaN_ofBits {bits : UInt64} (h : bits.toNat % 2 ^ 63 ≤ 2047 * 2 ^ 52) :
    (Float.ofBits bits).isNaN = false := by
  refine isNaN_ofModel_pack fun hnan => ?_
  unfold UnpackedFloat.unpack at hnan
  extract_lets mantissa exponentBits exponent signBit sign at hnan
  split at hnan
  · rename_i hall
    split at hnan
    · cases hnan
    · rename_i hmantissa
      apply hmantissa
      simp only [mantissa, exponentBits, UnpackedFloat.unpackMantissa_def,
        UnpackedFloat.unpackExponent_def, ← BitVec.toNat_inj, BitVec.extractLsb'_toNat] at hall ⊢
      simp [Nat.shiftRight_eq_div_pow] at hall ⊢
      omega
  · split at hnan
    · split at hnan <;> cases hnan
    · cases hnan

theorem isNaN_ofFields (negative : Bool) (significand scale : ℕ) :
    (ofFields negative significand scale).isNaN = false := by
  have hbits : min (scale * Nat.pow 2 fractionBits + significand) (2047 * Nat.pow 2 fractionBits) ≤
      2047 * 2 ^ 52 :=
    Nat.min_le_right ..
  refine isNaN_ofBits ?_
  generalize min (scale * Nat.pow 2 fractionBits + significand) (2047 * Nat.pow 2 fractionBits) =
    bits at hbits
  rw [UInt64.toNat_ofNat']
  cases negative with
  | true => simp; omega
  | false => simp; omega

theorem isNaN_ofDecimal (d : Decimal) : (ofDecimal d).isNaN = false := by
  unfold ofDecimal
  extract_lets point
  split
  · exact isNaN_ofFields ..
  · split
    · exact isNaN_ofFields ..
    · split <;> exact isNaN_ofFields ..

/-! ### Comparisons -/

theorem beq_self {a : Float} (h : a.isNaN = false) : (a == a) = true := by
  simpa using h

theorem lt_irrefl (a : Float) : ¬ a < a := by
  intro h
  by_cases ha : a.isNaN = true
  · exact not_lt (.inl ha) h
  · have heq : (a.toModel.unpack.compare a.toModel.unpack == some .eq) = true :=
      beq_self (by simpa using ha)
    have hlt : (a.toModel.unpack.compare a.toModel.unpack == some .lt) = true :=
      of_decide_eq_true (by exact h)
    rw [beq_iff_eq] at heq hlt
    rw [heq] at hlt
    cases hlt

theorem le_of_lt {a b : Float} (h : a < b) : a ≤ b := by
  have hlt : (a.toModel.unpack.compare b.toModel.unpack == some .lt) = true :=
    of_decide_eq_true (by exact h)
  show decide ((a.toModel.unpack.compare b.toModel.unpack).any (·.isLE) = true) = true
  rw [beq_iff_eq.1 hlt]
  rfl

theorem eq_one_of_beq {a : Float} (h : (a == 1) = true) : a = 1 := by
  obtain ⟨-, -, h | ⟨-, h⟩ | ⟨-, h⟩⟩ := Float.beq_iff_ne_nan_and_eq.1 h
  · exact h
  · exact absurd h (by decide)
  · exact absurd h (by decide)

end ModalBounds.Double
