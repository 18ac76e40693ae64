import ModalBounds.Proofs.Interval.Kaucher

/-!
# The product of modal intervals by its definition

A modal product is defined by the values of the factors: a proper factor says "for some value", an
improper one "for every value", so its bounds are the least and the greatest product, or the best of
the worst ones. `IsProduct` states this, and the sixteen cases of `productBounds` meet it for every
pair of factors (`isProduct_productBounds`). A proper factor is read as the union of its points:
each bound of a product is that of the product by one of them (`exists_point_mul_lower`), and the
other points stay inside as products are isotone.
-/

namespace ModalBounds.ModalInterval

open Set

section
variable {K : Type} [Field K] [LinearOrder K] [FloorRing K]

/-! ### The definition -/

def values (x : ModalInterval K) : Set K := {v | x.contains v = true}

/-- `m` is the least over `a` in `S` of the greatest `a * b` over `b` in `T`. -/
def IsMinMax (S T : Set K) (m : K) : Prop :=
  ∃ best : K → K, (∀ a ∈ S, IsGreatest ((a * ·) '' T) (best a)) ∧ IsLeast (best '' S) m

/-- `m` is the greatest over `a` in `S` of the least `a * b` over `b` in `T`. -/
def IsMaxMin (S T : Set K) (m : K) : Prop :=
  ∃ worst : K → K, (∀ a ∈ S, IsLeast ((a * ·) '' T) (worst a)) ∧ IsGreatest (worst '' S) m

/-- The bounds of the product of two modal intervals, by the modalities and the values of the
factors. -/
def IsProduct (x y : ModalInterval K) (bounds : K × K) : Prop :=
  match x.isImproper, y.isImproper with
  | false, false =>
    IsLeast (image2 (· * ·) x.values y.values) bounds.1 ∧
      IsGreatest (image2 (· * ·) x.values y.values) bounds.2
  | true, true =>
    IsGreatest (image2 (· * ·) x.values y.values) bounds.1 ∧
      IsLeast (image2 (· * ·) x.values y.values) bounds.2
  | false, true => IsMinMax x.values y.values bounds.1 ∧ IsMaxMin x.values y.values bounds.2
  | true, false => IsMinMax y.values x.values bounds.1 ∧ IsMaxMin y.values x.values bounds.2

variable {x : ModalInterval K}

theorem isImproper_eq_true : x.isImproper = true ↔ x.upper < x.lower := decide_eq_true_iff

theorem isImproper_eq_false : x.isImproper = false ↔ x.lower ≤ x.upper := by
  rw [isImproper, decide_eq_false_iff_not, not_lt]

theorem values_of_le (hx : x.lower ≤ x.upper) : x.values = Icc x.lower x.upper := by
  ext v
  simp [values, contains, proper_of_le hx]

theorem values_of_lt (hx : x.upper < x.lower) : x.values = Icc x.upper x.lower := by
  ext v
  simp [values, contains, proper_of_lt hx]

end

section
variable {K : Type} [Field K] [LinearOrder K] [FloorRing K] [IsStrictOrderedRing K]
  {x y : ModalInterval K} {a : K}

/-! ### Signs and order of the factors -/

theorem mul_comm_eq (x y : ModalInterval K) : x * y = y * x := by
  rw [mul_eq, mul_eq]
  simp only [mul_comm, max_comm]

theorem mul_neg_eq (x y : ModalInterval K) : x * -y = -(x * y) := by
  rw [neg_eq, neg_eq, mul_eq, mul_eq]
  simp only [posPart_neg, negPart_neg, neg_sub]

theorem neg_mul_neg (x y : ModalInterval K) : -x * -y = x * y := by
  rw [neg_eq, neg_eq, mul_eq, mul_eq]
  simp only [posPart_neg, negPart_neg, max_comm]

theorem upper_mul (x y : ModalInterval K) : (x * y).upper = -(x * -y).lower := by
  rw [mul_neg_eq, neg_eq, neg_neg]

/-! ### Products by points -/

theorem point_mul_of_nonneg (ha : 0 ≤ a) (y : ModalInterval K) :
    ⟨a, a⟩ * y = ⟨a * y.lower, a * y.upper⟩ := by
  rw [mul_eq]
  have hl : a * y.lower⁺ - a * y.lower⁻ = a * y.lower := by rw [← mul_sub, posPart_sub_negPart]
  have hu : a * y.upper⁺ - a * y.upper⁻ = a * y.upper := by rw [← mul_sub, posPart_sub_negPart]
  simp [posPart_of_nonneg ha, negPart_of_nonneg ha, mul_nonneg ha, hl, hu]

theorem point_mul_of_nonpos (ha : a ≤ 0) (y : ModalInterval K) :
    ⟨a, a⟩ * y = ⟨a * y.upper, a * y.lower⟩ := by
  have hneg : (⟨a, a⟩ * y : ModalInterval K) = -(⟨-a, -a⟩ * y) := by
    rw [mul_comm_eq _ y, mul_comm_eq _ y, ← mul_neg_eq, neg_eq]
    simp only [neg_neg]
  rw [hneg, point_mul_of_nonneg (neg_nonneg.2 ha), neg_eq]
  simp only [neg_mul, neg_neg]

theorem exists_point_mul_lower_of_nonneg (hl : 0 ≤ x.lower) (hx : x.lower ≤ x.upper)
    (y : ModalInterval K) :
    ∃ a ∈ Icc x.lower x.upper, (⟨a, a⟩ * y : ModalInterval K).lower = (x * y).lower := by
  have hu : 0 ≤ x.upper := hl.trans hx
  rcases le_total 0 y.lower with hy | hy
  · refine ⟨x.lower, ⟨le_rfl, hx⟩, ?_⟩
    rw [point_mul_of_nonneg hl, mul_eq]
    simp [posPart_of_nonneg, negPart_of_nonneg, hl, hu, hy, mul_nonneg]
  · refine ⟨x.upper, ⟨hx, le_rfl⟩, ?_⟩
    rw [point_mul_of_nonneg hu, mul_eq]
    simp [posPart_of_nonneg, negPart_of_nonneg, posPart_of_nonpos, negPart_of_nonpos, hl, hu, hy,
      mul_nonpos_of_nonneg_of_nonpos]

theorem exists_point_mul_lower_of_around (hl : x.lower ≤ 0) (hu : 0 ≤ x.upper)
    (y : ModalInterval K) :
    ∃ a ∈ Icc x.lower x.upper, (⟨a, a⟩ * y : ModalInterval K).lower = (x * y).lower := by
  have hproduct : (x * y).lower = -max (x.upper * y.lower⁻) (-x.lower * y.upper⁺) := by
    rw [mul_eq]
    simp [posPart_of_nonpos hl, negPart_of_nonpos hl, posPart_of_nonneg hu, negPart_of_nonneg hu]
  have hzero : (⟨0, 0⟩ * y : ModalInterval K).lower = 0 := by
    rw [point_mul_of_nonneg le_rfl, zero_mul]
  -- an end of `x` that `y` meets with the wrong sign is no better than zero
  rcases max_choice (x.upper * y.lower⁻) (-x.lower * y.upper⁺) with h | h
  · rcases le_total 0 y.lower with hy | hy
    · refine ⟨0, ⟨hl, hu⟩, ?_⟩
      rw [hzero, hproduct, h, negPart_of_nonneg hy, mul_zero, neg_zero]
    · refine ⟨x.upper, ⟨hl.trans hu, le_rfl⟩, ?_⟩
      rw [point_mul_of_nonneg hu, hproduct, h, negPart_of_nonpos hy, mul_neg, neg_neg]
  · rcases le_total 0 y.upper with hy | hy
    · refine ⟨x.lower, ⟨le_rfl, hl.trans hu⟩, ?_⟩
      rw [point_mul_of_nonpos hl, hproduct, h, posPart_of_nonneg hy, neg_mul, neg_neg]
    · refine ⟨0, ⟨hl, hu⟩, ?_⟩
      rw [hzero, hproduct, h, posPart_of_nonpos hy, mul_zero, neg_zero]

/-- The lower bound of a product by a proper factor is that of the product by one of its values. -/
theorem exists_point_mul_lower (hx : x.lower ≤ x.upper) (y : ModalInterval K) :
    ∃ a ∈ Icc x.lower x.upper, (⟨a, a⟩ * y : ModalInterval K).lower = (x * y).lower := by
  rcases le_total 0 x.lower with hl | hl
  · exact exists_point_mul_lower_of_nonneg hl hx y
  · rcases le_total 0 x.upper with hu | hu
    · exact exists_point_mul_lower_of_around hl hu y
    · -- both factors change their sign
      have hl' : 0 ≤ (-x).lower := by rw [neg_eq]; exact neg_nonneg.2 hu
      have hx' : (-x).lower ≤ (-x).upper := by rw [neg_eq]; exact neg_le_neg hx
      obtain ⟨a, ⟨hal, hau⟩, ha⟩ := exists_point_mul_lower_of_nonneg hl' hx' (-y)
      rw [neg_eq] at hal hau
      refine ⟨-a, ⟨le_neg_of_le_neg hau, neg_le_of_neg_le hal⟩, ?_⟩
      rw [← neg_mul_neg, neg_eq ⟨-a, -a⟩, neg_neg, ha, neg_mul_neg]

/-! ### A proper factor as the union of its points -/

omit [Field K] [FloorRing K] [IsStrictOrderedRing K] in
theorem point_subset (ha : a ∈ Icc x.lower x.upper) : (⟨a, a⟩ : ModalInterval K) ⊆ x := ⟨ha.1, ha.2⟩

theorem isLeast_lower_mul (hx : x.lower ≤ x.upper) (y : ModalInterval K) :
    IsLeast ((fun a => (⟨a, a⟩ * y : ModalInterval K).lower) '' Icc x.lower x.upper)
      (x * y).lower := by
  constructor
  · exact exists_point_mul_lower hx y
  · rintro _ ⟨a, ha, rfl⟩
    exact (mul_subset_mul (point_subset ha) (Subset.refl y)).1

theorem isGreatest_upper_mul (hx : x.lower ≤ x.upper) (y : ModalInterval K) :
    IsGreatest ((fun a => (⟨a, a⟩ * y : ModalInterval K).upper) '' Icc x.lower x.upper)
      (x * y).upper := by
  constructor
  · obtain ⟨a, ha, heq⟩ := exists_point_mul_lower hx (-y)
    refine ⟨a, ha, ?_⟩
    show (⟨a, a⟩ * y : ModalInterval K).upper = _
    rw [upper_mul, upper_mul x, heq]
  · rintro _ ⟨a, ha, rfl⟩
    exact (mul_subset_mul (point_subset ha) (Subset.refl y)).2

theorem point_mul_image (b : K) (S : Set K) :
    (fun a => (⟨a, a⟩ * ⟨b, b⟩ : ModalInterval K).lower) '' S = (b * ·) '' S ∧
      (fun a => (⟨a, a⟩ * ⟨b, b⟩ : ModalInterval K).upper) '' S = (b * ·) '' S := by
  simp only [mul_point, mul_comm b, and_self]

theorem point_mul_of_le (hy : y.lower ≤ y.upper) (a : K) :
    IsLeast ((a * ·) '' Icc y.lower y.upper) (⟨a, a⟩ * y : ModalInterval K).lower ∧
      IsGreatest ((a * ·) '' Icc y.lower y.upper) (⟨a, a⟩ * y : ModalInterval K).upper := by
  have hl := isLeast_lower_mul hy ⟨a, a⟩
  have hu := isGreatest_upper_mul hy ⟨a, a⟩
  rw [(point_mul_image a _).1, mul_comm_eq] at hl
  rw [(point_mul_image a _).2, mul_comm_eq] at hu
  exact ⟨hl, hu⟩

theorem point_mul_of_lt (hy : y.upper < y.lower) (a : K) :
    IsGreatest ((a * ·) '' Icc y.upper y.lower) (⟨a, a⟩ * y : ModalInterval K).lower ∧
      IsLeast ((a * ·) '' Icc y.upper y.lower) (⟨a, a⟩ * y : ModalInterval K).upper := by
  have hdual : (⟨a, a⟩ * y.dual : ModalInterval K) = (⟨a, a⟩ * y : ModalInterval K).dual :=
    (dual_mul ⟨a, a⟩ y).symm
  have h := point_mul_of_le (y := y.dual) hy.le a
  rw [hdual] at h
  exact h.symm

/-! ### The four modalities -/

theorem image2_bounds_of_le (hx : x.lower ≤ x.upper) (hy : y.lower ≤ y.upper) :
    IsLeast (image2 (· * ·) (Icc x.lower x.upper) (Icc y.lower y.upper)) (x * y).lower ∧
      IsGreatest (image2 (· * ·) (Icc x.lower x.upper) (Icc y.lower y.upper)) (x * y).upper := by
  obtain ⟨⟨a, ha, hla⟩, hlow⟩ := isLeast_lower_mul hx y
  obtain ⟨⟨c, hc, huc⟩, hup⟩ := isGreatest_upper_mul hx y
  refine ⟨⟨?_, ?_⟩, ⟨?_, ?_⟩⟩
  · obtain ⟨b, hb, hab⟩ := (point_mul_of_le hy a).1.1
    exact ⟨a, ha, b, hb, hab.trans hla⟩
  · rintro _ ⟨a, ha, b, hb, rfl⟩
    exact (hlow ⟨a, ha, rfl⟩).trans ((point_mul_of_le hy a).1.2 ⟨b, hb, rfl⟩)
  · obtain ⟨b, hb, hcb⟩ := (point_mul_of_le hy c).2.1
    exact ⟨c, hc, b, hb, hcb.trans huc⟩
  · rintro _ ⟨a, ha, b, hb, rfl⟩
    exact ((point_mul_of_le hy a).2.2 ⟨b, hb, rfl⟩).trans (hup ⟨a, ha, rfl⟩)

theorem minMax_of_le_of_lt (hx : x.lower ≤ x.upper) (hy : y.upper < y.lower) :
    IsMinMax (Icc x.lower x.upper) (Icc y.upper y.lower) (x * y).lower ∧
      IsMaxMin (Icc x.lower x.upper) (Icc y.upper y.lower) (x * y).upper :=
  ⟨⟨_, fun a _ => (point_mul_of_lt hy a).1, isLeast_lower_mul hx y⟩,
    ⟨_, fun a _ => (point_mul_of_lt hy a).2, isGreatest_upper_mul hx y⟩⟩

/-- The bounds of a product before any are merged are those its definition names. -/
theorem isProduct_productBounds (x y : ModalInterval K) : IsProduct x y (productBounds x y) := by
  have heq : productBounds x y = ((x * y).lower, (x * y).upper) := by rw [mul_eq_productBounds]
  rw [heq, IsProduct]
  rcases le_or_gt x.lower x.upper with hx | hx <;> rcases le_or_gt y.lower y.upper with hy | hy
  · rw [isImproper_eq_false.2 hx, isImproper_eq_false.2 hy, values_of_le hx, values_of_le hy]
    exact image2_bounds_of_le hx hy
  · rw [isImproper_eq_false.2 hx, isImproper_eq_true.2 hy, values_of_le hx, values_of_lt hy]
    exact minMax_of_le_of_lt hx hy
  · rw [isImproper_eq_true.2 hx, isImproper_eq_false.2 hy, values_of_lt hx,
      values_of_le hy, mul_comm_eq]
    exact minMax_of_le_of_lt hy hx
  · rw [isImproper_eq_true.2 hx, isImproper_eq_true.2 hy, values_of_lt hx, values_of_lt hy]
    have h := image2_bounds_of_le (x := x.dual) (y := y.dual) hx.le hy.le
    rw [← dual_mul] at h
    exact h.symm

/-- The worst product over all values from -1 to 3 is best at zero. -/
theorem isProduct_productBounds_aroundZero :
    IsProduct (⟨-1, 2⟩ : ModalInterval ℚ) ⟨3, -1⟩ (0, 0) := by
  have hbounds : productBounds (⟨-1, 2⟩ : ModalInterval ℚ) ⟨3, -1⟩ = (0, 0) := by decide +kernel
  rw [← hbounds]
  exact isProduct_productBounds ⟨-1, 2⟩ ⟨3, -1⟩

end

end ModalBounds.ModalInterval
