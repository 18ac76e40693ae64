import ModalBounds.Proofs.Interval.Finite
import ModalBounds.Proofs.Interval.Product

/-!
# Inverse operations

The inner difference takes back a sum (`innerSub_add`), and a product by the reciprocal of the dual
takes back a product by a factor that excludes zero (`mul_mul_recip_dual`): both bounds return,
whatever the modalities of the operands are. With tolerances this holds where no bounds are merged
(`innerSub_add_and_mul_div_dual`).
-/

namespace ModalBounds.ModalInterval

variable {K : Type} [Field K] [LinearOrder K] [FloorRing K] [IsStrictOrderedRing K]
  {x y : ModalInterval K}

theorem innerSub_add (x y : ModalInterval K) : (x + y).innerSub y = x := by
  show x + y - y.dual = x
  rw [sub_eq, add_eq]
  simp only [dual_lower, dual_upper, add_sub_cancel_right]

/-! ### Factors of one sign -/

theorem contains_zero_neg (h : y.contains 0 = false) : (-y).contains 0 = false := by
  rw [contains_zero_eq_false] at h ⊢
  simp only [neg_eq, neg_pos, neg_neg_iff_pos]
  rcases h with h | h
  · exact .inr h.symm
  · exact .inl h.symm

theorem recip_neg (h : y.contains 0 = false) : (-y).recip = -y.recip := by
  rw [recip_eq h, recip_eq (contains_zero_neg h), neg_eq, neg_eq]
  simp only [inv_neg]

theorem mul_of_pos (hl : 0 < y.lower) (hu : 0 < y.upper) :
    x * y = ⟨x.lower⁺ * y.lower - x.lower⁻ * y.upper, x.upper⁺ * y.upper - x.upper⁻ * y.lower⟩ := by
  have hpos {a b : K} (hb : 0 < b) : 0 ≤ a⁺ * b ∧ 0 ≤ a⁻ * b :=
    ⟨mul_nonneg (posPart_nonneg a) hb.le, mul_nonneg (negPart_nonneg a) hb.le⟩
  rw [mul_eq, posPart_of_nonneg hl.le, negPart_of_nonneg hl.le, posPart_of_nonneg hu.le,
    negPart_of_nonneg hu.le]
  simp only [mul_zero, max_eq_left, max_eq_right, (hpos hl).1, (hpos hl).2,
    (hpos hu).1, (hpos hu).2]

omit [FloorRing K] in
theorem parts_scaled {p q : K} (hp : 0 < p) (hq : 0 < q) (a : K) :
    (a⁺ * p - a⁻ * q)⁺ = a⁺ * p ∧ (a⁺ * p - a⁻ * q)⁻ = a⁻ * q := by
  rcases le_total 0 a with ha | ha
  · have h : 0 ≤ a * p := mul_nonneg ha hp.le
    simp only [posPart_of_nonneg ha, negPart_of_nonneg ha, zero_mul, sub_zero, posPart_of_nonneg h,
      negPart_of_nonneg h, and_self]
  · have h : a * q ≤ 0 := mul_nonpos_of_nonpos_of_nonneg ha hq.le
    simp only [posPart_of_nonpos ha, negPart_of_nonpos ha, zero_mul, zero_sub, neg_mul, neg_neg,
      posPart_of_nonpos h, negPart_of_nonpos h, and_self]

theorem mul_mul_recip_dual_of_pos (hl : 0 < y.lower) (hu : 0 < y.upper) :
    x * y * y.dual.recip = x := by
  have h0 : y.dual.contains 0 = false := contains_zero_eq_false.2 (.inl ⟨hu, hl⟩)
  have hback {p q : K} (hp : 0 < p) (hq : 0 < q) (a : K) :
      (a⁺ * p - a⁻ * q)⁺ * p⁻¹ - (a⁺ * p - a⁻ * q)⁻ * q⁻¹ = a := by
    obtain ⟨hpos, hneg⟩ := parts_scaled hp hq a
    rw [hpos, hneg, mul_inv_cancel_right₀ hp.ne', mul_inv_cancel_right₀ hq.ne', posPart_sub_negPart]
  rw [recip_eq h0, mul_of_pos hl hu, mul_of_pos (inv_pos.2 hl) (inv_pos.2 hu)]
  simp only [dual_lower, dual_upper, hback hl hu, hback hu hl]

/-- The reciprocal of the dual undoes a factor that excludes zero. -/
theorem mul_mul_recip_dual (h : y.contains 0 = false) : x * y * y.dual.recip = x := by
  rcases contains_zero_eq_false.1 h with hy | hy
  · exact mul_mul_recip_dual_of_pos hy.1 hy.2
  · -- both factors change their sign
    obtain ⟨z, rfl⟩ : ∃ z, y = -z := ⟨-y, by rw [neg_eq, neg_eq, neg_neg, neg_neg]⟩
    rw [neg_eq] at hy
    have hl : 0 < z.lower := neg_neg_iff_pos.1 hy.2
    have hu : 0 < z.upper := neg_neg_iff_pos.1 hy.1
    have h0 : z.dual.contains 0 = false := contains_zero_eq_false.2 (.inl ⟨hu, hl⟩)
    rw [dual_neg, recip_neg h0, mul_neg_eq x, neg_mul_neg]
    exact mul_mul_recip_dual_of_pos hl hu

/-! ### With tolerances -/

/-- The bounds are not merged: they are equal, or not almost equal. -/
def Unmerged (ε : K) (x : ModalInterval K) : Prop := x.settle ε = x

instance (ε : K) (x : ModalInterval K) : Decidable (Unmerged ε x) :=
  decidable_of_iff ((x.settle ε).lower = x.lower ∧ (x.settle ε).upper = x.upper)
    (mk.injEq ..).symm.to_iff

theorem extend_add_of_unmerged {ε : K} (h : Unmerged ε (x + y)) :
    (x.extend + y.extend : ModalInterval (Extended ε)) = (x + y).extend := by
  rw [add_extend, h]

theorem extend_mul_of_unmerged {ε : K} (h : Unmerged ε (x * y)) :
    (x.extend * y.extend : ModalInterval (Extended ε)) = (x * y).extend := by
  rw [mul_extend, h]

/-- Where no bounds are merged, the inner difference takes back a sum, and the quotient by the dual
takes back a product by a factor that excludes zero. -/
theorem innerSub_add_and_mul_div_dual {ε : K} (hx : Unmerged ε x) :
    (Unmerged ε (x + y) →
      (x.extend + y.extend : ModalInterval (Extended ε)).innerSub y.extend = x.extend) ∧
      (y.contains 0 = false → Unmerged ε (x * y) → Unmerged ε y.dual.recip →
        (x.extend * y.extend : ModalInterval (Extended ε)) / y.extend.dual = x.extend) := by
  constructor
  · intro hsum
    have hsub : (x + y - y.dual : ModalInterval K) = x := innerSub_add x y
    show x.extend + y.extend - y.dual.extend = _
    rw [extend_add_of_unmerged hsum, sub_extend, hsub, hx]
  · intro h0 hproduct hrecip
    have h0' : y.dual.contains 0 = false := by
      rw [contains_zero_eq_false] at h0 ⊢
      exact h0.imp And.symm And.symm
    have hdiv : x * y * y.dual.recip = x := mul_mul_recip_dual h0
    show x.extend * y.extend * y.dual.extend.recip = _
    rw [extend_mul_of_unmerged hproduct, recip_extend h0', hrecip, mul_extend, hdiv, hx]

theorem innerSub_add_and_mul_div_dual_improper_negative :
    (Unmerged (1 / 10 ^ 12 : ℚ) ⟨2, -1⟩ ∧ Unmerged (1 / 10 ^ 12 : ℚ) (⟨2, -1⟩ + ⟨-1, -3⟩) ∧
      (⟨-1, -3⟩ : ModalInterval ℚ).contains 0 = false ∧
      Unmerged (1 / 10 ^ 12 : ℚ) (⟨2, -1⟩ * ⟨-1, -3⟩) ∧
      Unmerged (1 / 10 ^ 12 : ℚ) (⟨-1, -3⟩ : ModalInterval ℚ).dual.recip) ∧
    ((extend ⟨2, -1⟩ + extend ⟨-1, -3⟩ : ModalInterval (Extended (1 / 10 ^ 12 : ℚ))).innerSub
      (extend ⟨-1, -3⟩) =
        extend ⟨2, -1⟩ ∧
      (extend ⟨2, -1⟩ * extend ⟨-1, -3⟩ : ModalInterval (Extended (1 / 10 ^ 12 : ℚ))) /
        (extend ⟨-1, -3⟩).dual =
        extend ⟨2, -1⟩) := by
  have hx : Unmerged (1 / 10 ^ 12 : ℚ) ⟨2, -1⟩ := by decide +kernel
  have hsum : Unmerged (1 / 10 ^ 12 : ℚ) (⟨2, -1⟩ + ⟨-1, -3⟩) := by decide +kernel
  have h0 : (⟨-1, -3⟩ : ModalInterval ℚ).contains 0 = false := by decide +kernel
  have hproduct : Unmerged (1 / 10 ^ 12 : ℚ) (⟨2, -1⟩ * ⟨-1, -3⟩) := by decide +kernel
  have hrecip : Unmerged (1 / 10 ^ 12 : ℚ) (⟨-1, -3⟩ : ModalInterval ℚ).dual.recip := by
    decide +kernel
  have h := innerSub_add_and_mul_div_dual (y := ⟨-1, -3⟩) hx
  exact ⟨⟨hx, hsum, h0, hproduct, hrecip⟩, h.1 hsum, h.2 h0 hproduct hrecip⟩

end ModalBounds.ModalInterval
