import Mathlib
import ModalBounds.Decimal.Double

/-!
# Rounding to doubles

Every finite double is a whole number of units, the least double above zero, so rounding is a
function on whole numbers: `roundUnits` keeps the 53 leading bits of a number, to the nearest, a tie
to the even. It is monotone and keeps what has no more bits (`roundUnits_mono`,
`roundUnits_mul_pow`). The rounding of unpacked numbers, which collects the bits it shifts out, is
this function (`round_eq`).
-/

namespace ModalBounds.Double

open Float.Model (UnpackedFloat Format totalExponent)
open Float.Model.UnpackedFloat (Sign ExtendedMantissa Accuracy)

/-! ### Quotients -/

section
variable {n m d q : ℕ}

theorem divideToEven_mul (q : ℕ) (hd : 0 < d) : divideToEven (q * d) d = q := by
  simp [divideToEven, Nat.mul_div_cancel q hd, hd]

theorem divideToEven_mono (h : n ≤ m) : divideToEven n d ≤ divideToEven m d := by
  have hdiv : n / d ≤ m / d := Nat.div_le_div_right h
  have hn := Nat.div_add_mod n d
  have hm := Nat.div_add_mod m d
  unfold divideToEven
  rcases hdiv.lt_or_eq with hlt | heq
  · dsimp only
    split <;> split <;> omega
  · -- the quotients are equal, so the remainders are in order
    have hmod : n % d ≤ m % d := by
      rw [heq] at hn
      omega
    rw [heq]
    simp only [Bool.or_eq_true, Bool.and_eq_true, decide_eq_true_eq, beq_iff_eq]
    split <;> split <;> omega

theorem le_divideToEven (hd : 0 < d) (h : q * d ≤ n) : q ≤ divideToEven n d :=
  (divideToEven_mul q hd).ge.trans (divideToEven_mono h)

theorem divideToEven_le (hd : 0 < d) (h : n ≤ q * d) : divideToEven n d ≤ q :=
  (divideToEven_mono h).trans (divideToEven_mul q hd).le

theorem divideToEven_mul_mul {c : ℕ} (hc : 0 < c) :
    divideToEven (n * c) (d * c) = divideToEven n d := by
  have hlt : (2 * (n % d * c) < d * c) = (2 * (n % d) < d) := by
    rw [← mul_assoc, Nat.mul_lt_mul_right hc]
  have heq : (2 * (n % d * c) == d * c) = (2 * (n % d) == d) := by
    rw [← mul_assoc, Bool.eq_iff_iff, beq_iff_eq, beq_iff_eq, Nat.mul_left_inj hc.ne']
  simp only [divideToEven, Nat.mul_div_mul_right _ _ hc, Nat.mul_mod_mul_right, hlt, heq]

end

/-! ### Whole numbers of units -/

/-- The bits that a whole number has beyond the 53 that fit. -/
def excess (n : ℕ) : ℕ := n.log2 - 52

/-- A whole number, rounded to 53 bits. -/
def roundUnits (n : ℕ) : ℕ := divideToEven n (2 ^ excess n) * 2 ^ excess n

section
variable {n m : ℕ}

theorem lt_of_excess (n : ℕ) : n < 2 ^ (53 + excess n) := by
  have h : n.log2 + 1 ≤ 53 + excess n := by
    unfold excess
    omega
  exact Nat.lt_log2_self.trans_le (Nat.pow_le_pow_right two_pos h)

theorem le_of_excess_pos (h : 0 < excess n) : 2 ^ (52 + excess n) ≤ n := by
  have hlog : 52 + excess n = n.log2 := by
    unfold excess at h ⊢
    omega
  have hn : n ≠ 0 := by
    rintro rfl
    simp [excess] at h
  rw [hlog]
  exact Nat.log2_self_le hn

theorem excess_eq_zero (h : n < 2 ^ 53) : excess n = 0 := by
  by_contra hne
  have hle := le_of_excess_pos (Nat.pos_of_ne_zero hne)
  have hpow : 2 ^ 53 ≤ 2 ^ (52 + excess n) := Nat.pow_le_pow_right two_pos (by omega)
  omega

theorem excess_mono (h : n ≤ m) : excess n ≤ excess m := by
  by_contra hlt
  rw [not_le] at hlt
  have hle := le_of_excess_pos (Nat.zero_lt_of_lt hlt)
  have hpow : 2 ^ (53 + excess m) ≤ 2 ^ (52 + excess n) := Nat.pow_le_pow_right two_pos (by omega)
  have := lt_of_excess m
  omega

theorem divideToEven_excess_le (n : ℕ) : divideToEven n (2 ^ excess n) ≤ 2 ^ 53 := by
  refine divideToEven_le (by positivity) ?_
  rw [← pow_add]
  exact (lt_of_excess n).le

theorem le_divideToEven_excess (h : 0 < excess n) : 2 ^ 52 ≤ divideToEven n (2 ^ excess n) := by
  refine le_divideToEven (by positivity) ?_
  rw [← pow_add]
  exact le_of_excess_pos h

theorem roundUnits_of_lt (h : n < 2 ^ 53) : roundUnits n = n := by
  have hone := divideToEven_mul n one_pos
  rw [roundUnits, excess_eq_zero h, pow_zero]
  rwa [mul_one] at hone ⊢

theorem roundUnits_mono (h : n ≤ m) : roundUnits n ≤ roundUnits m := by
  rcases (excess_mono h).eq_or_lt with heq | hlt
  · rw [roundUnits, roundUnits, heq]
    exact Nat.mul_le_mul_right _ (divideToEven_mono h)
  · -- a power of two lies between the two results
    calc roundUnits n ≤ 2 ^ 53 * 2 ^ excess n := Nat.mul_le_mul_right _ (divideToEven_excess_le n)
      _ = 2 ^ (53 + excess n) := (pow_add ..).symm
      _ ≤ 2 ^ (52 + excess m) := Nat.pow_le_pow_right two_pos (by omega)
      _ = 2 ^ 52 * 2 ^ excess m := pow_add ..
      _ ≤ roundUnits m := Nat.mul_le_mul_right _ (le_divideToEven_excess (Nat.zero_lt_of_lt hlt))

/-- Numbers of no more than 53 bits are kept, whatever their place. -/
theorem roundUnits_mul_pow (h : m < 2 ^ 53) (k : ℕ) : roundUnits (m * 2 ^ k) = m * 2 ^ k := by
  have hle : excess (m * 2 ^ k) ≤ k := by
    by_contra hlt
    rw [not_le] at hlt
    have hle := le_of_excess_pos (Nat.zero_lt_of_lt hlt)
    have hpow : 2 ^ (53 + k) ≤ 2 ^ (52 + excess (m * 2 ^ k)) :=
      Nat.pow_le_pow_right two_pos (by omega)
    have hlt' : m * 2 ^ k < 2 ^ 53 * 2 ^ k := Nat.mul_lt_mul_of_pos_right h (by positivity)
    rw [← pow_add] at hlt'
    omega
  have hsplit : m * 2 ^ k = m * 2 ^ (k - excess (m * 2 ^ k)) * 2 ^ excess (m * 2 ^ k) := by
    rw [mul_assoc, ← pow_add, Nat.sub_add_cancel hle]
  rw [roundUnits]
  generalize excess (m * 2 ^ k) = t at hsplit
  rw [hsplit, divideToEven_mul _ (by positivity)]

theorem roundUnits_pos (h : 0 < n) : 0 < roundUnits n := by
  calc 0 < 1 := one_pos
    _ = roundUnits 1 := (roundUnits_of_lt (by norm_num)).symm
    _ ≤ roundUnits n := roundUnits_mono h

end

/-! ### Bits that are shifted out -/

/-- A mantissa with its round bit and its sticky bit stands for a fraction. -/
structure Represents (em : ExtendedMantissa) (n d : ℕ) : Prop where
  mantissa : em.mantissa = n / d
  roundBit : em.roundBit = decide (d ≤ 2 * (n % d))
  stickyBit : em.stickyBit = decide (n % d ≠ 0 ∧ 2 * (n % d) ≠ d)

section
variable {em : ExtendedMantissa} {n d : ℕ}

theorem represents_exact (n : ℕ) : Represents (.ofMantissaAndAccuracy n .exact) n 1 where
  mantissa := (Nat.div_one n).symm
  roundBit := by simp [ExtendedMantissa.ofMantissaAndAccuracy, Nat.mod_one]
  stickyBit := by simp [ExtendedMantissa.ofMantissaAndAccuracy, Nat.mod_one]

theorem Represents.shiftRightOne (h : Represents em n d) (hd : 0 < d) :
    Represents em.shiftRightOne n (d * 2) := by
  have hmod : n % (d * 2) = n % d + d * (n / d % 2) := Nat.mod_mul
  have hlt := Nat.mod_lt n hd
  refine ⟨?_, ?_, ?_⟩
  · rw [← Nat.div_div_eq_div_mul, ← h.mantissa]
    rfl
  · rw [ExtendedMantissa.shiftRightOne, h.mantissa, hmod]
    rcases Nat.mod_two_eq_zero_or_one (n / d) with hbit | hbit <;> rw [hbit] <;> simp <;> omega
  · rw [ExtendedMantissa.shiftRightOne, h.roundBit, h.stickyBit, hmod]
    rcases Nat.mod_two_eq_zero_or_one (n / d) with hbit | hbit <;> rw [hbit, Bool.eq_iff_iff] <;>
      simp only [Bool.or_eq_true, decide_eq_true_eq] <;> omega

theorem represents_shiftRight (n k : ℕ) :
    Represents (ExtendedMantissa.ofMantissaAndAccuracy n .exact >>> k) n (2 ^ k) := by
  show Represents (k.repeat ExtendedMantissa.shiftRightOne _) n (2 ^ k)
  induction k with
  | zero => exact represents_exact n
  | succ k ih =>
    rw [pow_succ]
    exact ih.shiftRightOne (by positivity)

theorem Represents.roundedMantissa (h : Represents em n d) (hd : 0 < d) :
    em.roundedMantissa = divideToEven n d := by
  obtain ⟨m, round, sticky⟩ := em
  obtain ⟨rfl, rfl, rfl⟩ := h
  have hlt := Nat.mod_lt n hd
  have heven := Nat.mod_two_eq_zero_or_one (n / d)
  unfold divideToEven ExtendedMantissa.roundedMantissa
  rcases lt_trichotomy (2 * (n % d)) d with h | h | h
  · by_cases h0 : n % d = 0
    · simp [ExtendedMantissa.accuracy, h0, hd, Nat.not_le.2 hd, Accuracy.roundToNearestEven]
    · simp [ExtendedMantissa.accuracy, h, h.ne, h0, Nat.not_le.2 h, Accuracy.roundToNearestEven]
  · rcases heven with hbit | hbit <;>
      simp [ExtendedMantissa.accuracy, h, hbit, Accuracy.roundToNearestEven]
  · have h0 : n % d ≠ 0 := by omega
    simp [ExtendedMantissa.accuracy, h.le, h.ne', h0, h.not_gt, Accuracy.roundToNearestEven]

end

/-! ### Rounding of unpacked numbers -/

/-- A mantissa at a place above that of the units: it has 53 bits, or fewer in units. -/
structure IsCanonical (m k : ℕ) : Prop where
  lt : m < 2 ^ 53
  normal : k = 0 ∨ 2 ^ 52 ≤ m

theorem log2_mul_two_pow {m : ℕ} (hm : m ≠ 0) (k : ℕ) : (m * 2 ^ k).log2 = m.log2 + k := by
  rw [Nat.log2_eq_iff (by positivity), pow_add, add_right_comm, pow_add]
  exact ⟨Nat.mul_le_mul_right _ (Nat.log2_self_le hm),
    Nat.mul_lt_mul_of_pos_right Nat.lt_log2_self (by positivity)⟩

theorem targetExponent_eq {m : ℕ} (hm : m ≠ 0) (k : ℕ) :
    Format.binary64.targetExponent (totalExponent m ((k : ℤ) - 1074)) =
      (excess (m * 2 ^ k) : ℤ) - 1074 := by
  show max ((m.log2 : ℤ) + 1 + (k - 1074) - 53) (-1074) = _
  rw [excess, log2_mul_two_pow hm]
  omega

theorem decreaseExponent_eq (m k t : ℕ) :
    UnpackedFloat.decreaseExponent m ((k : ℤ) - 1074) ((t : ℤ) - 1074) =
      (m * 2 ^ (k - t), ((k - (k - t) : ℕ) : ℤ) - 1074) := by
  have hshift : ((k : ℤ) - 1074 - (t - 1074)).toNat = k - t := by omega
  have hexponent : (k : ℤ) - 1074 - (k - t : ℕ) = ((k - (k - t) : ℕ) : ℤ) - 1074 := by omega
  rw [UnpackedFloat.decreaseExponent, hshift, Nat.shiftLeft_eq]
  exact Prod.ext rfl hexponent

section
variable (s : Sign) {m k : ℕ}

theorem shiftToTargetExponent_eq (hm : m ≠ 0) (hk : k ≤ excess (m * 2 ^ k)) :
    UnpackedFloat.shiftToTargetExponent .binary64 m ((k : ℤ) - 1074) .exact =
      (ExtendedMantissa.ofMantissaAndAccuracy m .exact >>> (excess (m * 2 ^ k) - k),
        (excess (m * 2 ^ k) : ℤ) - 1074) := by
  have hshift : ((excess (m * 2 ^ k) : ℤ) - 1074 - (k - 1074)).toNat = excess (m * 2 ^ k) - k := by
    omega
  have hexponent : (k : ℤ) - 1074 + ((excess (m * 2 ^ k) - k : ℕ) : ℤ) =
      excess (m * 2 ^ k) - 1074 := by omega
  show UnpackedFloat.shiftToExponent m _ .exact (Format.binary64.targetExponent
      (totalExponent m _)) = _
  rw [targetExponent_eq hm]
  simp only [UnpackedFloat.shiftToExponent, hshift, hexponent]

theorem shiftToTargetExponent_of_excess_le (hm : m ≠ 0) (hk : excess (m * 2 ^ k) ≤ k) :
    UnpackedFloat.shiftToTargetExponent .binary64 m ((k : ℤ) - 1074) .exact =
      (ExtendedMantissa.ofMantissaAndAccuracy m .exact, (k : ℤ) - 1074) := by
  have hshift : ((excess (m * 2 ^ k) : ℤ) - 1074 - (k - 1074)).toNat = 0 := by omega
  show UnpackedFloat.shiftToExponent m _ .exact (Format.binary64.targetExponent
      (totalExponent m _)) = _
  rw [targetExponent_eq hm]
  simp only [UnpackedFloat.shiftToExponent, hshift, Nat.cast_zero, add_zero]
  rfl

/-- A rounded mantissa, which is shifted once more if it has run over. -/
theorem shiftToTargetExponent_rounded {r t : ℕ} (hr : 0 < r) (hle : r ≤ 2 ^ 53)
    (hnormal : t = 0 ∨ 2 ^ 52 ≤ r) :
    ∃ (em : ExtendedMantissa) (t' : ℕ), 0 < em.mantissa ∧
      UnpackedFloat.shiftToTargetExponent .binary64 r ((t : ℤ) - 1074) .exact =
        (em, (t' : ℤ) - 1074) ∧
      IsCanonical em.mantissa t' ∧ em.mantissa * 2 ^ t' = r * 2 ^ t := by
  rcases hle.lt_or_eq with hlt | rfl
  · have hexcess : excess (r * 2 ^ t) ≤ t := by
      have hlog := (Nat.log2_lt hr.ne').2 hlt
      rw [excess, log2_mul_two_pow hr.ne']
      omega
    exact ⟨_, t, hr, shiftToTargetExponent_of_excess_le hr.ne' hexcess, ⟨hlt, hnormal⟩, rfl⟩
  -- rounding up has run over into a power of two, which loses nothing by another shift
  · have hexcess : excess (2 ^ 53 * 2 ^ t) = t + 1 := by
      rw [excess, ← pow_add, Nat.log2_two_pow]
      omega
    have hone : t + 1 - t = 1 := by omega
    have hshift := shiftToTargetExponent_eq hr.ne' (k := t) (by omega)
    rw [hexcess, hone] at hshift
    have hmantissa := (represents_shiftRight (2 ^ 53) 1).mantissa
    refine ⟨_, t + 1, ?_, hshift, ?_, ?_⟩ <;> rw [hmantissa]
    · norm_num
    · exact ⟨by norm_num, .inr (by norm_num)⟩
    · rw [pow_succ, pow_succ]
      norm_num
      ring

/-- What has at most as many bits at its place as fit is rounded as a number of units. -/
theorem roundWithAccuracy_eq (hm : m ≠ 0) (hk : k ≤ excess (m * 2 ^ k)) :
    ∃ (m' k' : ℕ) (h : 0 < m'),
    UnpackedFloat.roundWithAccuracy .binary64 s m ((k : ℤ) - 1074) .exact =
      .finite s m' ((k' : ℤ) - 1074) h ∧
      IsCanonical m' k' ∧ m' * 2 ^ k' = roundUnits (m * 2 ^ k) := by
  -- the fraction that is rounded, in units
  have hrounded :
      divideToEven m (2 ^ (excess (m * 2 ^ k) - k)) =
        divideToEven (m * 2 ^ k) (2 ^ excess (m * 2 ^ k)) := by
    have hpow : 2 ^ excess (m * 2 ^ k) = 2 ^ (excess (m * 2 ^ k) - k) * 2 ^ k := by
      rw [← pow_add, Nat.sub_add_cancel hk]
    rw [hpow]
    exact (divideToEven_mul_mul (by positivity)).symm
  have hr := (represents_shiftRight m (excess (m * 2 ^ k) - k)).roundedMantissa (by positivity)
  rw [hrounded] at hr
  have hpos : 0 < divideToEven (m * 2 ^ k) (2 ^ excess (m * 2 ^ k)) := by
    have := roundUnits_pos (n := m * 2 ^ k) (by positivity)
    exact Nat.pos_of_mul_pos_right this
  obtain ⟨em, t, hem, hshift, hcanonical, hunits⟩ :=
    shiftToTargetExponent_rounded hpos (divideToEven_excess_le _)
    (t := excess (m * 2 ^ k)) ((excess (m * 2 ^ k)).eq_zero_or_pos.imp_right le_divideToEven_excess)
  refine ⟨em.mantissa, t, hem, ?_, hcanonical, hunits⟩
  simp only [UnpackedFloat.roundWithAccuracy, shiftToTargetExponent_eq hm hk, hr, hshift]
  exact dif_neg hem.ne'

/-- A number of units is rounded to the number that `roundUnits` gives. -/
theorem round_eq (hm : m ≠ 0) : ∃ (m' k' : ℕ) (h : 0 < m'),
    UnpackedFloat.round .binary64 s m ((k : ℤ) - 1074) = .finite s m' ((k' : ℤ) - 1074) h ∧
      IsCanonical m' k' ∧ m' * 2 ^ k' = roundUnits (m * 2 ^ k) := by
  -- bits are first added, so that none is left at a place below that of the 53 bits
  have hunits : m * 2 ^ (k - excess (m * 2 ^ k)) * 2 ^ (k - (k - excess (m * 2 ^ k))) =
      m * 2 ^ k := by
    rw [mul_assoc, ← pow_add]
    congr 2
    omega
  obtain ⟨m', k', h, hround, hcanonical, heq⟩ :=
    roundWithAccuracy_eq s (m := m * 2 ^ (k - excess (m * 2 ^ k)))
    (k := k - (k - excess (m * 2 ^ k))) (by positivity) (by rw [hunits]; omega)
  refine ⟨m', k', h, ?_, hcanonical, by rw [heq, hunits]⟩
  simp only [UnpackedFloat.round, targetExponent_eq hm, decreaseExponent_eq]
  exact hround

end

end ModalBounds.Double
