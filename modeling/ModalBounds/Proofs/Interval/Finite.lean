import Mathlib
import ModalBounds.Proofs.Interval.Kaucher
import ModalBounds.Proofs.Scalar.Extended

/-!
# Intervals with finite bounds

Over extended numbers an operation on intervals with finite bounds gives what it gives over the
field, but for bounds that are almost equal, which become one (`settle`). Without tolerance nothing
is left of that: `extend` then carries every operation of the field over, the reciprocal where zero
is outside.
-/

namespace ModalBounds.ModalInterval

open Extended

variable {K : Type} [Field K] [LinearOrder K] [FloorRing K] {ε : K}

omit [Field K] [LinearOrder K] [FloorRing K] in
/-- The interval with the same finite bounds. -/
def extend (x : ModalInterval K) : ModalInterval (Extended ε) := ⟨finite x.lower, finite x.upper⟩

/-- The interval with bounds that are almost equal made one. -/
def settle (ε : K) (x : ModalInterval K) : ModalInterval K :=
  if x.lower = x.upper ∨ |x.lower - x.upper| ≤ ε ∨
      |x.lower - x.upper| ≤ ε * max |x.lower| |x.upper| then
    if straddlesZero x.lower x.upper then ⟨0, 0⟩ else ⟨x.lower, x.lower⟩
  else x

/-! ### Bounds -/

omit [Field K] [LinearOrder K] [FloorRing K] in
@[simp] theorem extend_lower (x : ModalInterval K) :
    (x.extend : ModalInterval (Extended ε)).lower = finite x.lower := rfl

omit [Field K] [LinearOrder K] [FloorRing K] in
@[simp] theorem extend_upper (x : ModalInterval K) :
    (x.extend : ModalInterval (Extended ε)).upper = finite x.upper := rfl

@[simp] theorem isFinite_extend (x : ModalInterval K) :
    (x.extend : ModalInterval (Extended ε)).isFinite = true := rfl

theorem isFinite_iff {x : ModalInterval (Extended ε)} :
    x.isFinite = true ↔ ∃ a : ModalInterval K, x = a.extend := by
  rw [isFinite, Bool.and_eq_true, Extended.isFinite_iff, Extended.isFinite_iff]
  constructor
  · rintro ⟨⟨a, ha⟩, b, hb⟩
    exact ⟨⟨a, b⟩, by rw [extend, ← ha, ← hb]⟩
  · rintro ⟨a, rfl⟩
    exact ⟨⟨_, rfl⟩, _, rfl⟩

theorem isSubset_extend {x y : ModalInterval K} :
    (x.extend : ModalInterval (Extended ε)).isSubset y.extend = true ↔ x ⊆ y := by
  rw [isSubset, Bool.and_eq_true, decide_eq_true_eq, decide_eq_true_eq]
  rfl

theorem isProper_extend {x : ModalInterval K} :
    (x.extend : ModalInterval (Extended ε)).isProper = true ↔ x.lower ≤ x.upper :=
  decide_eq_true_iff

theorem isImproper_extend (x : ModalInterval K) :
    (x.extend : ModalInterval (Extended ε)).isImproper = x.isImproper := rfl

theorem proper_extend (x : ModalInterval K) :
    (x.extend : ModalInterval (Extended ε)).proper = x.proper.extend := by
  rw [proper, proper, isImproper_extend]
  split <;> rfl

theorem contains_extend (x : ModalInterval K) (v : K) :
    (x.extend : ModalInterval (Extended ε)).contains (finite v) = x.contains v := by
  rw [contains, contains, proper_extend]
  rfl

theorem mid_extend [IsStrictOrderedRing K] (x : ModalInterval K) :
    (x.extend : ModalInterval (Extended ε)).mid = finite x.mid :=
  finite_div _ (Nat.cast_ne_zero.2 two_ne_zero)

/-! ### Settled bounds -/

theorem settle_cases (ε : K) (x : ModalInterval K) : x.settle ε = x ∨ ∃ c, x.settle ε = ⟨c, c⟩ ∧
    (x.lower ≤ x.upper → x.lower ≤ c ∧ c ≤ x.upper) := by
  unfold settle
  split_ifs with h hzero
  · refine .inr ⟨0, rfl, fun hle => ?_⟩
    simp only [straddlesZero, Bool.or_eq_true, Bool.and_eq_true, decide_eq_true_eq] at hzero
    rcases hzero with hzero | hzero
    · exact hzero
    · exact ⟨hle.trans hzero.1, hzero.2.trans hle⟩
  · exact .inr ⟨x.lower, rfl, fun hle => ⟨le_rfl, hle⟩⟩
  · exact .inl rfl

theorem collapse_finite (a b : K) : collapse (finite a : Extended ε) (finite b) =
    (finite (settle ε ⟨a, b⟩).lower, finite (settle ε ⟨a, b⟩).upper) := by
  rw [collapse, settle]
  by_cases h : isAlmost (finite a : Extended ε) (finite b) = true
  · rw [if_pos h, if_pos ((isAlmost_finite a b).1 h), straddlesZero_finite]
    by_cases hz : straddlesZero a b = true
    · rw [if_pos hz, if_pos hz]
      rfl
    · rw [if_neg hz, if_neg hz]
  · rw [if_neg h, if_neg fun h' => h ((isAlmost_finite a b).2 h')]

theorem of_finite (a b : K) :
    (of (finite a) (finite b) : ModalInterval (Extended ε)) = (settle ε ⟨a, b⟩).extend := by
  rw [of, collapse_finite]
  rfl

theorem settle_self (ε a : K) : settle ε ⟨a, a⟩ = ⟨a, a⟩ := by
  rw [settle, if_pos (.inl rfl)]
  split_ifs with h
  · rw [straddlesZero, Bool.or_self, Bool.and_eq_true, decide_eq_true_eq, decide_eq_true_eq] at h
    have h0 : a = 0 := le_antisymm h.1 h.2
    rw [h0]
  · rfl

theorem point_finite (a : K) : (point (finite a) : ModalInterval (Extended ε)) = extend ⟨a, a⟩ := by
  rw [point, of_finite, settle_self]

theorem settle_settle (ε : K) (x : ModalInterval K) : (x.settle ε).settle ε = x.settle ε := by
  rcases x.settle_cases ε with h | ⟨c, h, -⟩
  · rw [h, h]
  · rw [h, settle_self]

theorem settle_zero [IsStrictOrderedRing K] (x : ModalInterval K) : x.settle 0 = x := by
  obtain ⟨a, b⟩ := x
  by_cases hab : a = b
  · subst hab
    exact settle_self 0 a
  · have hd : ¬ |a - b| ≤ 0 := fun h => hab (sub_eq_zero.1 (abs_nonpos_iff.1 h))
    simp only [settle, hab, hd, zero_mul, or_self, if_false]

/-! ### Operations -/

variable [IsStrictOrderedRing K] (x y : ModalInterval K)

theorem neg_extend : (-x.extend : ModalInterval (Extended ε)) = ((-x).settle ε).extend := by
  rw [neg_eq]
  exact of_finite _ _

theorem add_extend :
    (x.extend + y.extend : ModalInterval (Extended ε)) = ((x + y).settle ε).extend := by
  rw [add_eq]
  exact of_finite _ _

theorem sub_extend :
    (x.extend - y.extend : ModalInterval (Extended ε)) = ((x - y).settle ε).extend := by
  rw [sub_eq]
  exact of_finite _ _

omit [IsStrictOrderedRing K] in
theorem productBounds_extend : productBounds (x.extend : ModalInterval (Extended ε)) y.extend =
    (finite (productBounds x y).1, finite (productBounds x y).2) := by
  have hsign (z : ModalInterval K) :
      (z.extend : ModalInterval (Extended ε)).signPattern = z.signPattern := rfl
  simp only [productBounds, hsign]
  cases x.signPattern <;> cases y.signPattern <;> rfl

theorem mul_extend :
    (x.extend * y.extend : ModalInterval (Extended ε)) = ((x * y).settle ε).extend := by
  show (x.extend : ModalInterval (Extended ε)).mul y.extend = _
  rw [mul_eq_productBounds, mul, isFinite_extend, isFinite_extend, productBounds_extend]
  exact of_finite _ _

theorem recip_extend {x : ModalInterval K} (hx : x.contains 0 = false) :
    (x.extend : ModalInterval (Extended ε)).recip = (x.recip.settle ε).extend := by
  have hl : x.lower ≠ 0 := by
    rcases contains_zero_eq_false.1 hx with h | h; exacts [h.1.ne', h.1.ne]
  have hu : x.upper ≠ 0 := by
    rcases contains_zero_eq_false.1 hx with h | h; exacts [h.2.ne', h.2.ne]
  have hin : ¬ ((decide (x.proper.lower < 0) && decide (0 < x.proper.upper)) ||
      (x.proper.lower == 0 && x.proper.upper == 0)) = true := by
    intro h
    rw [contains, Bool.and_eq_false_iff, decide_eq_false_iff_not, decide_eq_false_iff_not] at hx
    rw [Bool.or_eq_true, Bool.and_eq_true, Bool.and_eq_true, decide_eq_true_eq, decide_eq_true_eq,
      beq_iff_eq, beq_iff_eq] at h
    rcases h with h | h
    · exact hx.elim (fun hl => hl h.1.le) fun hu => hu h.2.le
    · exact hx.elim (fun hl => hl h.1.le) fun hu => hu h.2.ge
  have hinv {v other : K} (hv : v ≠ 0) : invBound (finite v : Extended ε) (finite other) =
      finite v⁻¹ := by
    rw [invBound, if_neg (by simpa [zero_eq] using hv), ← one_div]
    exact finite_div 1 hv
  rw [recip_eq hx, recip, proper_extend]
  refine (if_neg hin).trans ?_
  rw [extend_lower, extend_upper, hinv hl, hinv hu]
  exact of_finite _ _

/-! ### Functions of the proper form

The image of a dual is the dual of the settled image, which is not settled the other way round; so
these need an interval in order, or no tolerance. -/

variable {x y}

theorem onProper_extend {f : K → K → K × K} {f' : Extended ε → Extended ε → Extended ε × Extended ε}
    (hx : x.lower ≤ x.upper ∨ ε = 0)
    (hf : ∀ a b, f' (finite a) (finite b) = (finite (f a b).1, finite (f a b).2)) :
    (x.extend : ModalInterval (Extended ε)).onProper f' = ((x.onProper f).settle ε).extend := by
  rcases le_or_gt x.lower x.upper with h | h
  · rw [onProper_of_le h, onProper, proper_extend, proper_of_le h, extend_lower, extend_upper, hf,
      isImproper_extend, isImproper, decide_eq_false h.not_gt]
    exact of_finite _ _
  · obtain rfl := hx.resolve_left h.not_ge
    rw [onProper_of_lt h, onProper, proper_extend, proper_of_lt h, extend_lower, extend_upper, hf,
      isImproper_extend, isImproper, decide_eq_true h, settle_zero]
    have h0 := of_finite (ε := (0 : K)) (f x.upper x.lower).1 (f x.upper x.lower).2
    rw [settle_zero] at h0
    exact congrArg dual h0

theorem abs_extend (hx : x.lower ≤ x.upper ∨ ε = 0) :
    (x.extend : ModalInterval (Extended ε)).abs = (x.abs.settle ε).extend := by
  refine onProper_extend hx fun a b => ?_
  simp only [zero_eq, finite_le]
  split_ifs <;> rfl

theorem npow_extend (hx : x.lower ≤ x.upper ∨ ε = 0) (n : ℕ) :
    (x.extend : ModalInterval (Extended ε)).npow n = ((x.npow n).settle ε).extend := by
  rcases Nat.even_or_odd n with hn | hn
  · rcases eq_or_ne n 0 with rfl | h0
    · rw [npow_zero, npow, if_pos rfl, one_eq, point_finite, settle_self]
    · have h1 : ¬ n % 2 = 1 := by rw [Nat.even_iff.1 hn]; decide
      rw [npow, if_neg h0, if_neg h1, npow, if_neg h0, if_neg h1]
      refine onProper_extend hx fun a b => ?_
      simp only [zero_eq, finite_le]
      split_ifs <;> rfl
  · have h1 : n % 2 = 1 := Nat.odd_iff.1 hn
    have h0 : n ≠ 0 := by omega
    rw [npow_odd x hn, npow, if_neg h0, if_pos h1]
    exact of_finite _ _

/-! ### Without tolerance -/

section
variable (x y)

theorem extend_neg : ((-x).extend : ModalInterval (Extended (0 : K))) = -x.extend := by
  rw [neg_extend, settle_zero]

theorem extend_add : ((x + y).extend : ModalInterval (Extended (0 : K))) = x.extend + y.extend := by
  rw [add_extend, settle_zero]

theorem extend_sub : ((x - y).extend : ModalInterval (Extended (0 : K))) = x.extend - y.extend := by
  rw [sub_extend, settle_zero]

theorem extend_mul : ((x * y).extend : ModalInterval (Extended (0 : K))) = x.extend * y.extend := by
  rw [mul_extend, settle_zero]

theorem extend_abs : (x.abs.extend : ModalInterval (Extended (0 : K))) = x.extend.abs := by
  rw [abs_extend (.inr rfl), settle_zero]

theorem extend_npow (n : ℕ) :
    ((x.npow n).extend : ModalInterval (Extended (0 : K))) = x.extend.npow n := by
  rw [npow_extend (.inr rfl), settle_zero]

end

theorem extend_recip (hx : x.contains 0 = false) :
    (x.recip.extend : ModalInterval (Extended (0 : K))) = x.extend.recip := by
  rw [recip_extend hx, settle_zero]

end ModalBounds.ModalInterval
