import Mathlib
import ModalBounds.Proofs.Scalar.Field

/-!
# Kaucher arithmetic in closed form

Over an ordered field the sixteen cases of the product, and the cases of an even power, are one
expression in the positive and negative parts of the bounds (`mul_eq`, `npow_even`). Each bound is
monotone in each bound of the operands, so the operations are isotone for the inclusion `⊆` of
modal intervals, and exchanging the bounds of the operands exchanges those of the result.
-/

namespace ModalBounds.ModalInterval

section
variable {α : Type}

@[simp] theorem dual_lower (x : ModalInterval α) : x.dual.lower = x.upper := rfl

@[simp] theorem dual_upper (x : ModalInterval α) : x.dual.upper = x.lower := rfl

end

section
variable {K : Type} [LinearOrder K]

/-- Inclusion of modal intervals: the bounds of the second lie outside those of the first. -/
instance : HasSubset (ModalInterval K) := ⟨fun x y => y.lower ≤ x.lower ∧ x.upper ≤ y.upper⟩

theorem Subset.refl (x : ModalInterval K) : x ⊆ x := ⟨le_rfl, le_rfl⟩

/-- Both bounds of an interval, in either order, lie between those of another. -/
def Within (y x : ModalInterval K) : Prop := y ⊆ x ∧ y.dual ⊆ x

variable {x y : ModalInterval K}

theorem Within.of_subset (h : x ⊆ y) (hx : x.lower ≤ x.upper) :
    x.Within y := ⟨h, h.1.trans hx, hx.trans h.2⟩

theorem Within.refl (h : x.lower ≤ x.upper) : x.Within x := .of_subset (Subset.refl x) h

theorem Within.dual (h : y.Within x) : y.dual.Within x := ⟨h.2, h.1⟩

end

variable {K : Type} [Field K] [LinearOrder K] [FloorRing K] [IsStrictOrderedRing K]

omit [IsStrictOrderedRing K] in
theorem proper_of_le {x : ModalInterval K} (h : x.lower ≤ x.upper) : x.proper = x := by
  rw [proper, isImproper, decide_eq_false h.not_gt]
  rfl

omit [IsStrictOrderedRing K] in
theorem proper_of_lt {x : ModalInterval K} (h : x.upper < x.lower) : x.proper = x.dual := by
  rw [proper, isImproper, decide_eq_true h]
  rfl

theorem onProper_of_le {x : ModalInterval K} (h : x.lower ≤ x.upper) (f : K → K → K × K) :
    x.onProper f = ⟨(f x.lower x.upper).1, (f x.lower x.upper).2⟩ := by
  rw [onProper, proper_of_le h, isImproper, decide_eq_false h.not_gt]
  exact of_eq _ _

theorem onProper_of_lt {x : ModalInterval K} (h : x.upper < x.lower) (f : K → K → K × K) :
    x.onProper f = ⟨(f x.upper x.lower).2, (f x.upper x.lower).1⟩ := by
  rw [onProper, proper_of_lt h, isImproper, decide_eq_true h]
  exact congrArg dual (of_eq _ _)

/-! ### Closed forms -/

theorem add_eq (x y : ModalInterval K) : x + y = ⟨x.lower + y.lower, x.upper + y.upper⟩ := of_eq _ _

theorem sub_eq (x y : ModalInterval K) : x - y = ⟨x.lower - y.upper, x.upper - y.lower⟩ := of_eq _ _

theorem neg_eq (x : ModalInterval K) : -x = ⟨-x.upper, -x.lower⟩ := of_eq _ _

theorem mul_eq_productBounds (x y : ModalInterval K) :
    x * y = ⟨(productBounds x y).1, (productBounds x y).2⟩ := of_eq _ _

omit [FloorRing K] in
/-- The two signs of a number, with all that the cases of a product ask about it. -/
theorem sign_cases (a : K) :
    (0 ≤ a ∧ decide (0 ≤ a) = true ∧ a⁺ = a ∧ a⁻ = 0) ∨
      (a ≤ 0 ∧ decide (0 ≤ a) = false ∧ a⁺ = 0 ∧ a⁻ = -a) := by
  rcases le_or_gt 0 a with h | h
  · exact .inl ⟨h, decide_eq_true h, posPart_of_nonneg h, negPart_of_nonneg h⟩
  · exact .inr ⟨h.le, decide_eq_false h.not_ge, posPart_of_nonpos h.le, negPart_of_nonpos h.le⟩

theorem mul_eq (x y : ModalInterval K) :
    x * y = ⟨max (x.lower⁺ * y.lower⁺) (x.upper⁻ * y.upper⁻) -
        max (x.upper⁺ * y.lower⁻) (x.lower⁻ * y.upper⁺),
      max (x.upper⁺ * y.upper⁺) (x.lower⁻ * y.lower⁻) -
        max (x.lower⁺ * y.upper⁻) (x.upper⁻ * y.lower⁺)⟩ := by
  obtain ⟨a₁, a₂⟩ := x
  obtain ⟨b₁, b₂⟩ := y
  rw [mul_eq_productBounds]
  simp only [productBounds, signPattern]
  rcases sign_cases a₁ with ⟨ha₁, sa₁, pa₁, na₁⟩ | ⟨ha₁, sa₁, pa₁, na₁⟩ <;>
  rcases sign_cases a₂ with ⟨ha₂, sa₂, pa₂, na₂⟩ | ⟨ha₂, sa₂, pa₂, na₂⟩ <;>
  rcases sign_cases b₁ with ⟨hb₁, sb₁, pb₁, nb₁⟩ | ⟨hb₁, sb₁, pb₁, nb₁⟩ <;>
  rcases sign_cases b₂ with ⟨hb₂, sb₂, pb₂, nb₂⟩ | ⟨hb₂, sb₂, pb₂, nb₂⟩ <;>
    simp only [sa₁, sa₂, sb₁, sb₂, pa₁, pa₂, pb₁, pb₂, na₁, na₂, nb₁, nb₂, mul_zero, zero_mul,
      max_self, sub_zero, zero_sub, mk.injEq, mul_neg, neg_mul, neg_neg, neg_zero]
  -- What is left compares a product with zero or orders two of them.
  all_goals simp [max_comm, ← min_neg_neg, mul_nonneg, mul_nonneg_of_nonpos_of_nonpos,
    mul_nonpos_of_nonneg_of_nonpos, mul_nonpos_of_nonpos_of_nonneg, ha₁, ha₂, hb₁, hb₂]

theorem npow_zero (x : ModalInterval K) : x.npow 0 = ⟨1, 1⟩ := by simp [npow]

theorem npow_odd (x : ModalInterval K) {n : ℕ} (hn : Odd n) :
    x.npow n = ⟨x.lower ^ n, x.upper ^ n⟩ := by
  have h1 : n % 2 = 1 := Nat.odd_iff.1 hn
  have h0 : n ≠ 0 := by omega
  rw [npow, if_neg h0, if_pos h1, of_eq]
  rfl

omit [FloorRing K] in
theorem even_power_bounds {n : ℕ} (hn : Even n) (h0 : n ≠ 0) {l u : K} (hlu : l ≤ u) :
    (if 0 ≤ l then (l ^ n, u ^ n) else if u ≤ 0 then (u ^ n, l ^ n) else (0, max (l ^ n) (u ^ n))) =
      (max l⁺ u⁻ ^ n, max u⁺ l⁻ ^ n) := by
  split_ifs with hl hu
  · have hu := hl.trans hlu
    simp [posPart_of_nonneg, negPart_of_nonneg, hl, hu]
  · have hl := hlu.trans hu
    simp [posPart_of_nonpos, negPart_of_nonpos, hl, hu, hn.neg_pow]
  · have hmax : max u (-l) ^ n = max (l ^ n) (u ^ n) := by
      rcases le_total u (-l) with h | h
      · have := pow_le_pow_left₀ (not_le.1 hu).le h n
        rw [max_eq_right h, hn.neg_pow, max_eq_left (by rwa [hn.neg_pow] at this)]
      · have := pow_le_pow_left₀ (neg_nonneg.2 (not_le.1 hl).le) h n
        rw [max_eq_left h, max_eq_right (by rwa [hn.neg_pow] at this)]
    rw [posPart_of_nonpos (not_le.1 hl).le, negPart_of_nonneg (not_le.1 hu).le,
      posPart_of_nonneg (not_le.1 hu).le, negPart_of_nonpos (not_le.1 hl).le, hmax, max_self,
      zero_pow h0]

theorem npow_even (x : ModalInterval K) {n : ℕ} (hn : Even n) (h0 : n ≠ 0) :
    x.npow n = ⟨max x.lower⁺ x.upper⁻ ^ n, max x.upper⁺ x.lower⁻ ^ n⟩ := by
  have h1 : ¬ n % 2 = 1 := by rw [Nat.even_iff.1 hn]; decide
  rw [npow, if_neg h0, if_neg h1]
  rcases le_or_gt x.lower x.upper with h | h
  · simp only [onProper_of_le h, Exact.npow_eq, even_power_bounds hn h0 h]
  · simp only [onProper_of_lt h, Exact.npow_eq, even_power_bounds hn h0 h.le]

theorem abs_eq (x : ModalInterval K) : x.abs = ⟨max x.lower⁺ x.upper⁻, max x.upper⁺ x.lower⁻⟩ := by
  have hfold {l u : K} (hlu : l ≤ u) :
      (if 0 ≤ l then (l, u) else if u ≤ 0 then (-u, -l) else (0, max (-l) u)) =
        (max l⁺ u⁻, max u⁺ l⁻) := by
    split_ifs with hl hu
    · simp [posPart_of_nonneg, negPart_of_nonneg, hl, hl.trans hlu]
    · simp [posPart_of_nonpos, negPart_of_nonpos, hu, hlu.trans hu]
    · have hl := (not_le.1 hl).le
      have hu := (not_le.1 hu).le
      simp [posPart_of_nonpos, posPart_of_nonneg, negPart_of_nonpos, negPart_of_nonneg,
        hl, hu, max_comm]
  rw [abs]
  rcases le_or_gt x.lower x.upper with h | h
  · rw [onProper_of_le h, hfold h]
  · rw [onProper_of_lt h, hfold h.le]

omit [IsStrictOrderedRing K] in
theorem contains_zero_eq_false {x : ModalInterval K} : x.contains 0 = false ↔
    (0 < x.lower ∧ 0 < x.upper) ∨ (x.lower < 0 ∧ x.upper < 0) := by
  rw [contains, Bool.and_eq_false_iff, decide_eq_false_iff_not, decide_eq_false_iff_not,
    not_le, not_le]
  rcases le_or_gt x.lower x.upper with h | h
  · rw [proper_of_le h]
    exact or_congr ⟨fun hl => ⟨hl, hl.trans_le h⟩, fun hl => hl.1⟩
      ⟨fun hu => ⟨h.trans_lt hu, hu⟩, fun hu => hu.2⟩
  · rw [proper_of_lt h]
    exact or_congr ⟨fun hu => ⟨hu.trans h, hu⟩, fun hu => hu.2⟩
      ⟨fun hl => ⟨hl, h.trans hl⟩, fun hl => hl.1⟩

theorem recip_eq {x : ModalInterval K} (hx : x.contains 0 = false) :
    x.recip = ⟨x.upper⁻¹, x.lower⁻¹⟩ := by
  have hsign := contains_zero_eq_false.1 hx
  have hl : x.lower ≠ 0 := by rcases hsign with h | h; exacts [h.1.ne', h.1.ne]
  have hu : x.upper ≠ 0 := by rcases hsign with h | h; exacts [h.2.ne', h.2.ne]
  have hp : x.proper = x ∨ x.proper = x.dual := by
    unfold proper; split
    · exact .inr rfl
    · exact .inl rfl
  have hin : ((decide (x.proper.lower < 0) && decide (0 < x.proper.upper)) ||
      (x.proper.lower == 0 && x.proper.upper == 0)) = false := by
    rcases hp with hp | hp <;> rw [hp] <;> rcases hsign with h | h <;>
      simp [hl, hu, h.1.not_gt, h.2.not_gt]
  simp [recip, hin, invBound, hl, hu]

/-! ### Dual operands -/

theorem dual_add (x y : ModalInterval K) : (x + y).dual = x.dual + y.dual := by
  simp only [add_eq, dual]

theorem dual_sub (x y : ModalInterval K) : (x - y).dual = x.dual - y.dual := by
  simp only [sub_eq, dual]

theorem dual_neg (x : ModalInterval K) : (-x).dual = -x.dual := by simp only [neg_eq, dual]

theorem dual_mul (x y : ModalInterval K) : (x * y).dual = x.dual * y.dual := by
  simp only [mul_eq, dual]

theorem dual_npow (x : ModalInterval K) (n : ℕ) : (x.npow n).dual = x.dual.npow n := by
  rcases Nat.even_or_odd n with hn | hn
  · rcases eq_or_ne n 0 with rfl | h0
    · simp only [npow_zero, dual]
    · simp only [npow_even _ hn h0, dual]
  · simp only [npow_odd _ hn, dual]

/-! ### Isotone operations -/

variable {x x' y y' : ModalInterval K}

theorem add_subset_add (hx : x ⊆ x') (hy : y ⊆ y') : x + y ⊆ x' + y' := by
  rw [add_eq, add_eq]
  exact ⟨add_le_add hx.1 hy.1, add_le_add hx.2 hy.2⟩

theorem sub_subset_sub (hx : x ⊆ x') (hy : y ⊆ y') : x - y ⊆ x' - y' := by
  rw [sub_eq, sub_eq]
  exact ⟨sub_le_sub hx.1 hy.2, sub_le_sub hx.2 hy.1⟩

theorem neg_subset_neg (hx : x ⊆ x') : -x ⊆ -x' := by
  rw [neg_eq, neg_eq]
  exact ⟨neg_le_neg hx.2, neg_le_neg hx.1⟩

theorem mul_subset_mul (hx : x ⊆ x') (hy : y ⊆ y') : x * y ⊆ x' * y' := by
  have hpos {a b c d : K} (hab : a ≤ b) (hcd : c ≤ d) : a⁺ * c⁺ ≤ b⁺ * d⁺ :=
    mul_le_mul (posPart_mono hab) (posPart_mono hcd) (posPart_nonneg c) (posPart_nonneg b)
  have hneg {a b c d : K} (hab : a ≤ b) (hcd : c ≤ d) : b⁻ * d⁻ ≤ a⁻ * c⁻ :=
    mul_le_mul (negPart_anti hab) (negPart_anti hcd) (negPart_nonneg d) (negPart_nonneg a)
  have hmix {a b c d : K} (hab : a ≤ b) (hcd : c ≤ d) : a⁺ * d⁻ ≤ b⁺ * c⁻ :=
    mul_le_mul (posPart_mono hab) (negPart_anti hcd) (negPart_nonneg d) (posPart_nonneg b)
  have hmix' {a b c d : K} (hab : a ≤ b) (hcd : c ≤ d) : b⁻ * c⁺ ≤ a⁻ * d⁺ :=
    mul_le_mul (negPart_anti hab) (posPart_mono hcd) (posPart_nonneg c) (negPart_nonneg a)
  rw [mul_eq, mul_eq]
  exact ⟨sub_le_sub (max_le_max (hpos hx.1 hy.1) (hneg hx.2 hy.2))
      (max_le_max (hmix hx.2 hy.1) (hmix' hx.1 hy.2)),
    sub_le_sub (max_le_max (hpos hx.2 hy.2) (hneg hx.1 hy.1))
      (max_le_max (hmix hx.1 hy.2) (hmix' hx.2 hy.1))⟩

theorem npow_subset_npow (hx : x ⊆ x') (n : ℕ) : x.npow n ⊆ x'.npow n := by
  rcases Nat.even_or_odd n with hn | hn
  · rcases eq_or_ne n 0 with rfl | h0
    · simp only [npow_zero]; exact Subset.refl _
    · rw [npow_even x hn h0, npow_even x' hn h0]
      exact ⟨pow_le_pow_left₀ (le_max_of_le_left (posPart_nonneg _))
          (max_le_max (posPart_mono hx.1) (negPart_anti hx.2)) n,
        pow_le_pow_left₀ (le_max_of_le_left (posPart_nonneg _))
          (max_le_max (posPart_mono hx.2) (negPart_anti hx.1)) n⟩
  · rw [npow_odd x hn, npow_odd x' hn]
    exact ⟨hn.strictMono_pow.monotone hx.1, hn.strictMono_pow.monotone hx.2⟩

theorem abs_subset_abs (hx : x ⊆ x') : x.abs ⊆ x'.abs := by
  rw [abs_eq, abs_eq]
  exact ⟨max_le_max (posPart_mono hx.1) (negPart_anti hx.2),
    max_le_max (posPart_mono hx.2) (negPart_anti hx.1)⟩

theorem recip_subset_recip (hx : x ⊆ x') (h0 : x.contains 0 = false) (h0' : x'.contains 0 = false) :
    x.recip ⊆ x'.recip := by
  rw [recip_eq h0, recip_eq h0']
  rcases contains_zero_eq_false.1 h0 with h | h <;> rcases contains_zero_eq_false.1 h0' with h' | h'
  · exact ⟨inv_anti₀ h.2 hx.2, inv_anti₀ h'.1 hx.1⟩
  · exact absurd (h.2.trans_le hx.2) h'.2.not_gt
  · exact absurd (h'.1.trans_le hx.1) h.1.not_gt
  · exact ⟨(inv_le_inv_of_neg h'.2 h.2).2 hx.2, (inv_le_inv_of_neg h.1 h'.1).2 hx.1⟩

/-! ### Points -/

theorem mul_point (a b : K) : (⟨a, a⟩ * ⟨b, b⟩ : ModalInterval K) = ⟨a * b, a * b⟩ := by
  rw [mul_eq_productBounds]
  rcases sign_cases a with ⟨-, ha, -, -⟩ | ⟨-, ha, -, -⟩ <;>
    rcases sign_cases b with ⟨-, hb, -, -⟩ | ⟨-, hb, -, -⟩ <;>
      simp only [productBounds, signPattern, ha, hb]

theorem npow_point (a : K) (n : ℕ) : (⟨a, a⟩ : ModalInterval K).npow n = ⟨a ^ n, a ^ n⟩ := by
  rcases Nat.even_or_odd n with hn | hn
  · rcases eq_or_ne n 0 with rfl | h0
    · rw [npow_zero, pow_zero]
    · rw [npow_even _ hn h0]
      rcases le_total 0 a with h | h
      · simp [posPart_of_nonneg, negPart_of_nonneg, h]
      · simp [posPart_of_nonpos, negPart_of_nonpos, h, hn.neg_pow]
  · rw [npow_odd _ hn]

/-! ### Bounds of proper results -/

/-- Each bound of a product of proper intervals is the product of two of their bounds. -/
theorem mul_bounds_mem (hx : x.lower ≤ x.upper) (hy : y.lower ≤ y.upper) :
    (x * y).lower ∈ Set.image2 (· * ·) {x.lower, x.upper} {y.lower, y.upper} ∧
      (x * y).upper ∈ Set.image2 (· * ·) {x.lower, x.upper} {y.lower, y.upper} := by
  obtain ⟨a₁, a₂⟩ := x
  obtain ⟨b₁, b₂⟩ := y
  set S : Set K := Set.image2 (· * ·) {a₁, a₂} {b₁, b₂} with hS
  have h₁₁ : a₁ * b₁ ∈ S := ⟨a₁, by simp, b₁, by simp, rfl⟩
  have h₁₂ : a₁ * b₂ ∈ S := ⟨a₁, by simp, b₂, by simp, rfl⟩
  have h₂₁ : a₂ * b₁ ∈ S := ⟨a₂, by simp, b₁, by simp, rfl⟩
  have h₂₂ : a₂ * b₂ ∈ S := ⟨a₂, by simp, b₂, by simp, rfl⟩
  have hmin {p q : K} (hp : p ∈ S) (hq : q ∈ S) : min p q ∈ S := by
    rcases min_choice p q with h | h <;> rwa [h]
  have hmax {p q : K} (hp : p ∈ S) (hq : q ∈ S) : max p q ∈ S := by
    rcases max_choice p q with h | h <;> rwa [h]
  have hnot {a b : K} (hab : a ≤ b) (ha : 0 ≤ a) (hb : decide (0 ≤ b) = false) : False :=
    of_decide_eq_false hb (ha.trans hab)
  rw [mul_eq_productBounds]
  simp only [productBounds, signPattern]
  rcases sign_cases a₁ with ⟨ha, sa₁, -, -⟩ | ⟨ha, sa₁, -, -⟩ <;>
  rcases sign_cases a₂ with ⟨-, sa₂, -, -⟩ | ⟨-, sa₂, -, -⟩ <;>
  rcases sign_cases b₁ with ⟨hb, sb₁, -, -⟩ | ⟨hb, sb₁, -, -⟩ <;>
  rcases sign_cases b₂ with ⟨-, sb₂, -, -⟩ | ⟨-, sb₂, -, -⟩ <;>
    simp only [sa₁, sa₂, sb₁, sb₂]
  -- cases with the bounds out of order are void; the others are products, or extremes of two
  all_goals first
    | exact (hnot hx ha sa₂).elim
    | exact (hnot hy hb sb₂).elim
    | exact ⟨by first | assumption | exact hmin h₁₂ h₂₁, by first | assumption | exact hmax h₁₁ h₂₂⟩

theorem npow_bounds_mem (hx : x.lower ≤ x.upper) (n : ℕ) :
    (x.npow n).lower ∈ (· ^ n) '' Set.Icc x.lower x.upper ∧
      (x.npow n).upper ∈ (· ^ n) '' Set.Icc x.lower x.upper := by
  have hl : x.lower ^ n ∈ (· ^ n) '' Set.Icc x.lower x.upper := ⟨_, ⟨le_rfl, hx⟩, rfl⟩
  have hu : x.upper ^ n ∈ (· ^ n) '' Set.Icc x.lower x.upper := ⟨_, ⟨hx, le_rfl⟩, rfl⟩
  rcases Nat.even_or_odd n with hn | hn
  · rcases eq_or_ne n 0 with rfl | h0
    · rw [npow_zero]; simpa using And.intro hl hu
    · have h := even_power_bounds hn h0 hx
      rw [npow_even x hn h0]
      show (max x.lower⁺ x.upper⁻ ^ n, max x.upper⁺ x.lower⁻ ^ n).1 ∈ _ ∧
        (max x.lower⁺ x.upper⁻ ^ n, max x.upper⁺ x.lower⁻ ^ n).2 ∈ _
      rw [← h]
      split_ifs with hl0 hu0
      · exact ⟨hl, hu⟩
      · exact ⟨hu, hl⟩
      · refine ⟨⟨0, ⟨(not_le.1 hl0).le, (not_le.1 hu0).le⟩, zero_pow h0⟩, ?_⟩
        rcases max_choice (x.lower ^ n) (x.upper ^ n) with h | h
        · exact h.symm ▸ hl
        · exact h.symm ▸ hu
  · rw [npow_odd x hn]; exact ⟨hl, hu⟩

end ModalBounds.ModalInterval
