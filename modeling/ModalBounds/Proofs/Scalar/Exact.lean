import Mathlib
import ModalBounds.Proofs.Scalar.Extended

/-!
# Exact numbers

`LawfulExact` has what the symmetry of interval operations needs of arithmetic that does not round:
two bounds are almost equal only if they are equal, the order is one, and a single point stays a
single point where a periodic function is sampled. Nothing is said about the values of the real
functions and of powers. Exact numbers with infinities and an undefined one obey the laws
(`Extended.lawfulExact`).
-/

namespace ModalBounds

class LawfulExact (α : Type) [Elementary α] : Prop where
  collapse_eq (a b : α) : collapse a b = (a, b)
  eq_of_beq {a b : α} (h : (a == b) = true) : a = b
  lt_asymm {a b : α} (h : a < b) : ¬ b < a
  lt_of_neg_of_pos {a b : α} (ha : a < 0) (hb : 0 < b) : a < b
  trichotomy {a b : α} (ha : Scalar.isFinite a = true) (hb : Scalar.isFinite b = true) : a < b ∨
    a = b ∨ b < a
  nonneg_or_nonpos {a : α} (h : Scalar.isFinite a = true) : 0 ≤ a ∨ a ≤ 0
  min_comm (a b : α) : min a b = min b a
  max_comm (a b : α) : max a b = max b a
  min_choice (a b : α) : min a b = a ∨ min a b = b
  max_choice (a b : α) : max a b = a ∨ max a b = b
  isFinite_infinity : Scalar.isFinite (Scalar.infinity : α) = false
  isFinite_neg_infinity : Scalar.isFinite (-Scalar.infinity : α) = false
  isFinite_add_halfPi {a : α} (h : Scalar.isFinite a = true) :
    Scalar.isFinite (a + Elementary.halfPi) = true
  /-- No point is a period long. -/
  not_period_le {a : α} (h : Scalar.isFinite a = true) : ¬ ((2 : ℕ) : α) * Elementary.pi ≤ a - a
  /-- There is a whole number from `a` to `a` only if it is `a`. -/
  ceil_eq {a : α} (h : Elementary.ceil a ≤ Elementary.floor a) : Elementary.ceil a = a
  /-- There are no two of them, unless adding one makes no difference. -/
  add_one_eq {a : α} (h : a + 1 ≤ Elementary.floor a) : a + 1 = a

namespace Extended

variable {K : Type} [Field K] [LinearOrder K] [FloorRing K]

theorem lt_asymm_extended {a b : Extended (0 : K)} (h : a < b) : ¬ b < a := by
  intro h'
  rcases a with x | m | _ <;> rcases b with y | n | _
  · have hxy : x < y := h
    exact hxy.not_gt h'
  · have hn : n = false := h
    have hn' : n = true := h'
    rw [hn] at hn'
    cases hn'
  · exact h
  · have hm : m = true := h
    have hm' : m = false := h'
    rw [hm] at hm'
    cases hm'
  · have hm : m = true := h.1
    have hm' : m = false := h'.2
    rw [hm] at hm'
    cases hm'
  all_goals exact h

theorem min_cases (a b : Extended (0 : K)) : min a b = min b a ∧ (min a b = a ∨ min a b = b) := by
  rcases a with x | m | _ <;> rcases b with y | n | _
  · simp only [finite_min]
    exact ⟨by rw [min_comm], (min_choice x y).imp (congrArg finite) (congrArg finite)⟩
  · cases n
    · exact ⟨rfl, .inl rfl⟩
    · exact ⟨rfl, .inr rfl⟩
  · exact ⟨rfl, .inl rfl⟩
  · cases m
    · exact ⟨rfl, .inr rfl⟩
    · exact ⟨rfl, .inl rfl⟩
  · cases m <;> cases n
    · exact ⟨rfl, .inl rfl⟩
    · exact ⟨rfl, .inr rfl⟩
    · exact ⟨rfl, .inl rfl⟩
    · exact ⟨rfl, .inl rfl⟩
  · exact ⟨rfl, .inl rfl⟩
  · exact ⟨rfl, .inr rfl⟩
  · exact ⟨rfl, .inr rfl⟩
  · exact ⟨rfl, .inl rfl⟩

theorem max_cases (a b : Extended (0 : K)) : max a b = max b a ∧ (max a b = a ∨ max a b = b) := by
  rcases a with x | m | _ <;> rcases b with y | n | _
  · simp only [finite_max]
    exact ⟨by rw [max_comm], (max_choice x y).imp (congrArg finite) (congrArg finite)⟩
  · cases n
    · exact ⟨rfl, .inr rfl⟩
    · exact ⟨rfl, .inl rfl⟩
  · exact ⟨rfl, .inl rfl⟩
  · cases m
    · exact ⟨rfl, .inl rfl⟩
    · exact ⟨rfl, .inr rfl⟩
  · cases m <;> cases n
    · exact ⟨rfl, .inl rfl⟩
    · exact ⟨rfl, .inl rfl⟩
    · exact ⟨rfl, .inr rfl⟩
    · exact ⟨rfl, .inl rfl⟩
  · exact ⟨rfl, .inl rfl⟩
  · exact ⟨rfl, .inr rfl⟩
  · exact ⟨rfl, .inr rfl⟩
  · exact ⟨rfl, .inl rfl⟩

variable [IsStrictOrderedRing K]

theorem collapse_eq (a b : Extended (0 : K)) : collapse a b = (a, b) := by
  by_cases hab : isAlmost a b = true
  · have heq : a = b := by
      rcases a with x | m | _ <;> rcases b with y | n | _
      · rw [isAlmost_finite] at hab
        rcases hab with h | h | h
        · rw [h]
        · rw [sub_eq_zero.1 (abs_nonpos_iff.1 h)]
        · rw [zero_mul] at h
          rw [sub_eq_zero.1 (abs_nonpos_iff.1 h)]
      · cases hab
      · cases hab
      · cases hab
      · cases m <;> cases n <;> first | rfl | cases hab
      all_goals cases hab
    subst heq
    rw [collapse, if_pos hab]
    split
    · rename_i hz
      rcases a with x | m | _
      · rw [straddlesZero_finite] at hz
        simp only [straddlesZero, Bool.or_self, Bool.and_eq_true, decide_eq_true_eq] at hz
        rw [le_antisymm hz.1 hz.2]
        rfl
      · cases m <;> cases hz
      · cases hz
    · rfl
  · rw [collapse, if_neg hab]

variable [RealFunctions K]

/-- Exact numbers obey the laws, whatever the real functions are, if the half of a period is
positive. -/
theorem lawfulExact (hpi : 0 < (RealFunctions.pi : K)) : LawfulExact (Extended (0 : K)) where
  collapse_eq := collapse_eq
  eq_of_beq {a b} h := by
    rcases a with x | m | _ <;> rcases b with y | n | _
    · rw [of_decide_eq_true h]
    · cases h
    · cases h
    · cases h
    · rw [eq_of_beq (α := Bool) h]
    all_goals cases h
  lt_asymm := lt_asymm_extended
  lt_of_neg_of_pos {a b} ha hb := by
    rcases a with x | m | _ <;> rcases b with y | n | _
    · exact lt_trans (b := (0 : K)) ha hb
    · exact hb
    · exact hb
    · exact ha
    · exact ⟨ha, hb⟩
    · exact hb
    all_goals exact ha
  trichotomy {a b} ha hb := by
    obtain ⟨x, rfl⟩ := isFinite_iff.1 ha
    obtain ⟨y, rfl⟩ := isFinite_iff.1 hb
    rcases lt_trichotomy x y with h | rfl | h
    · exact .inl h
    · exact .inr (.inl rfl)
    · exact .inr (.inr h)
  nonneg_or_nonpos {a} h := by
    obtain ⟨x, rfl⟩ := isFinite_iff.1 h
    exact le_total 0 x
  min_comm a b := (min_cases a b).1
  max_comm a b := (max_cases a b).1
  min_choice a b := (min_cases a b).2
  max_choice a b := (max_cases a b).2
  isFinite_infinity := rfl
  isFinite_neg_infinity := rfl
  isFinite_add_halfPi {a} h := by
    obtain ⟨x, rfl⟩ := isFinite_iff.1 h
    have htwo : ((2 : ℕ) : K) ≠ 0 := Nat.cast_ne_zero.2 two_ne_zero
    have hhalf : (Elementary.halfPi : Extended (0 : K)) =
        finite (RealFunctions.pi / ((2 : ℕ) : K)) :=
      finite_div _ htwo
    rw [hhalf]
    rfl
  not_period_le {a} h := by
    obtain ⟨x, rfl⟩ := isFinite_iff.1 h
    intro hle
    have hle : ((2 : ℕ) : K) * RealFunctions.pi ≤ x - x := hle
    rw [sub_self] at hle
    have hpos : 0 < ((2 : ℕ) : K) * RealFunctions.pi := mul_pos (Nat.cast_pos.2 two_pos) hpi
    exact hpos.not_ge hle
  ceil_eq {a} h := by
    rcases a with x | m | _
    · have hle : ((⌈x⌉ : ℤ) : K) ≤ ((⌊x⌋ : ℤ) : K) := h
      exact congrArg finite (le_antisymm (hle.trans (Int.floor_le x)) (Int.le_ceil x))
    · rfl
    · rfl
  add_one_eq {a} h := by
    rcases a with x | m | _
    · have hle : x + 1 ≤ ((⌊x⌋ : ℤ) : K) := h
      exact absurd (hle.trans (Int.floor_le x)) (lt_add_one x).not_ge
    · rfl
    · rfl

end Extended

end ModalBounds
