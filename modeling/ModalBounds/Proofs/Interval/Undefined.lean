import Mathlib
import ModalBounds.Interval.Function
import ModalBounds.Proofs.Scalar.Undefined

/-!
# Undefined intervals

An interval with an undefined bound makes the result of every operation undefined, but for those
that fold the negative part of a range onto the positive one: they take zero and the greater of two
bounds, and so lose an undefined bound if the other one is on its own side of zero (`FoldsAway`).
-/

namespace ModalBounds.ModalInterval

open LawfulUndefined

variable {α : Type} [Elementary α] [LawfulUndefined α] {x y : ModalInterval α}

omit [LawfulUndefined α] in
theorem isUndefined_iff :
    x.isUndefined = true ↔ Scalar.isNaN x.lower = true ∨ Scalar.isNaN x.upper = true :=
  Bool.or_eq_true_iff

theorem isAlmost_eq_false {a b : α} (h : Scalar.isNaN a = true ∨ Scalar.isNaN b = true) :
    isAlmost a b = false := by
  rw [isAlmost, beq_eq_false h, Bool.false_or]
  rcases h with h | h <;> rw [isFinite_eq_false h]
  · rfl
  · rw [Bool.and_false, Bool.false_and]

theorem isUndefined_of (a b : α) : (of a b).isUndefined = (Scalar.isNaN a || Scalar.isNaN b) := by
  rw [of, collapse]
  cases halmost : isAlmost a b with
  | false => rfl
  | true =>
    have hdefined : (Scalar.isNaN a || Scalar.isNaN b) = false := by
      by_contra h
      rw [Bool.not_eq_false, Bool.or_eq_true_iff] at h
      rw [isAlmost_eq_false h] at halmost
      cases halmost
    rw [if_pos rfl, hdefined]
    rw [Bool.or_eq_false_iff] at hdefined
    by_cases hz : straddlesZero a b = true
    · rw [if_pos hz]
      simp only [isUndefined, isNaN_zero, Bool.or_self]
    · rw [if_neg hz]
      simp only [isUndefined, hdefined.1, Bool.or_self]

theorem isUndefined_undefined : (undefined : ModalInterval α).isUndefined = true := by
  rw [isUndefined_iff]
  exact .inl isNaN_nan

theorem isUndefined_of_of_or {a b : α} (h : Scalar.isNaN a = true ∨ Scalar.isNaN b = true) :
    (of a b).isUndefined = true := by
  rw [isUndefined_of, Bool.or_eq_true_iff]
  exact h

theorem proper_of_isUndefined (h : x.isUndefined = true) : x.proper = x := by
  rw [proper, isImproper, decide_eq_false (not_lt (isUndefined_iff.1 h).symm)]
  rfl

theorem isFinite_of_isUndefined (h : x.isUndefined = true) : x.isFinite = false := by
  rcases isUndefined_iff.1 h with h | h <;> rw [isFinite, LawfulUndefined.isFinite_eq_false h]
  · rfl
  · exact Bool.and_false _

/-! ### Arithmetic -/

theorem isUndefined_neg (h : x.isUndefined = true) : (-x).isUndefined = true :=
  isUndefined_of_of_or ((isUndefined_iff.1 h).symm.imp isNaN_neg isNaN_neg)

theorem isUndefined_add (h : x.isUndefined = true ∨ y.isUndefined = true) :
    (x + y).isUndefined = true := by
  refine isUndefined_of_of_or ?_
  rw [isUndefined_iff, isUndefined_iff, or_or_or_comm] at h
  exact h.imp isNaN_add isNaN_add

theorem isUndefined_sub (h : x.isUndefined = true ∨ y.isUndefined = true) :
    (x - y).isUndefined = true := by
  refine isUndefined_of_of_or ?_
  rw [isUndefined_iff, isUndefined_iff, or_comm (a := Scalar.isNaN y.lower = true),
    or_or_or_comm] at h
  exact h.imp isNaN_sub isNaN_sub

theorem isUndefined_mul (h : x.isUndefined = true ∨ y.isUndefined = true) :
    (x * y).isUndefined = true := by
  show (mul x y).isUndefined = true
  have hfinite : (x.isFinite && y.isFinite) = false := by
    rcases h with h | h <;> rw [isFinite_of_isUndefined h]
    · exact Bool.false_and _
    · exact Bool.and_false _
  rw [mul, hfinite]
  exact isUndefined_undefined

theorem isNaN_invBound {value other : α} (h : Scalar.isNaN value = true) :
    Scalar.isNaN (invBound value other) = true := by
  rw [invBound, beq_eq_false (.inl h)]
  exact isNaN_div (.inr h)

theorem isUndefined_recip (h : x.isUndefined = true) : x.recip.isUndefined = true := by
  rw [recip]
  split
  · exact isUndefined_undefined
  · exact isUndefined_of_of_or ((isUndefined_iff.1 h).symm.imp isNaN_invBound isNaN_invBound)

theorem isUndefined_div (h : x.isUndefined = true ∨ y.isUndefined = true) :
    (x / y).isUndefined = true :=
  isUndefined_mul (h.imp_right isUndefined_recip)

/-! ### Functions -/

theorem isUndefined_exp (h : x.isUndefined = true) : x.exp.isUndefined = true :=
  isUndefined_of_of_or ((isUndefined_iff.1 h).imp isNaN_exp isNaN_exp)

theorem isUndefined_tanh (h : x.isUndefined = true) : x.tanh.isUndefined = true :=
  isUndefined_of_of_or ((isUndefined_iff.1 h).imp isNaN_tanh isNaN_tanh)

theorem isUndefined_log (h : x.isUndefined = true) : x.log.isUndefined = true := by
  rw [log]
  split
  · exact isUndefined_undefined
  · exact isUndefined_of_of_or ((isUndefined_iff.1 h).imp isNaN_log isNaN_log)

theorem isNaN_rootBound {bound : α} (h : Scalar.isNaN bound = true) :
    Scalar.isNaN (rootBound bound) = true := by
  rw [rootBound, if_neg (not_lt (.inl h))]
  exact isNaN_sqrt h

theorem isUndefined_sqrt (h : x.isUndefined = true) : x.sqrt.isUndefined = true :=
  isUndefined_of_of_or ((isUndefined_iff.1 h).imp isNaN_rootBound isNaN_rootBound)

theorem isUndefined_onProper {f : α → α → α × α} (h : x.isUndefined = true) :
    (x.onProper f).isUndefined =
      (Scalar.isNaN (f x.lower x.upper).1 || Scalar.isNaN (f x.lower x.upper).2) := by
  have himproper : x.isImproper = false := decide_eq_false (not_lt (isUndefined_iff.1 h).symm)
  rw [onProper, proper_of_isUndefined h, himproper]
  exact isUndefined_of _ _

theorem isUndefined_sin (h : x.isUndefined = true) : x.sin.isUndefined = true := by
  have hnan : (Scalar.isNaN x.lower || Scalar.isNaN x.upper) = true := h
  rw [sin, isUndefined_onProper h, Wave.range, if_pos hnan, isNaN_nan]
  rfl

theorem isUndefined_cos (h : x.isUndefined = true) : x.cos.isUndefined = true := by
  have hlower : Scalar.isNaN x.lower = true → Scalar.isNaN (x.lower + Elementary.halfPi) = true :=
    fun h => isNaN_add (.inl h)
  have hupper : Scalar.isNaN x.upper = true → Scalar.isNaN (x.upper + Elementary.halfPi) = true :=
    fun h => isNaN_add (.inl h)
  rw [cos, isUndefined_onProper h, Wave.range,
    if_pos (Bool.or_eq_true_iff.2 ((isUndefined_iff.1 h).imp hlower hupper)), isNaN_nan]
  rfl

theorem isUndefined_tan (h : x.isUndefined = true) : x.tan.isUndefined = true := by
  have hnan : (Scalar.isNaN x.lower || Scalar.isNaN x.upper) = true := h
  rw [tan, isUndefined_onProper h, tangentRange, if_pos hnan, isNaN_nan]
  rfl

/-! ### Folding at zero -/

omit [LawfulUndefined α] in
/-- The bounds under a function that folds the negative part of a range onto the positive one, where
it is `f` and `g`. -/
def foldBounds (f g : α → α) (lower upper : α) : α × α :=
  if 0 ≤ lower then (g lower, g upper)
  else if upper ≤ 0 then (f upper, f lower)
  else (0, max (f lower) (g upper))

/-- One bound is undefined, and the other is on its own side of zero. -/
def FoldsAway (x : ModalInterval α) : Prop :=
  (Scalar.isNaN x.lower = true ∧ 0 < x.upper) ∨ (x.lower < 0 ∧ Scalar.isNaN x.upper = true)

omit [LawfulUndefined α] in
theorem FoldsAway.isUndefined (h : x.FoldsAway) : x.isUndefined = true :=
  isUndefined_iff.2 (h.imp And.left And.right)

/-- Folding hides an undefined bound only from an interval that folds away. -/
theorem foldsAway_of_isUndefined {f g : α → α}
    (hf : ∀ {a}, Scalar.isNaN a = true → Scalar.isNaN (f a) = true)
    (hg : ∀ {a}, Scalar.isNaN a = true → Scalar.isNaN (g a) = true) (h : x.isUndefined = true)
    (hdefined : (x.onProper (foldBounds f g)).isUndefined = false) : x.FoldsAway := by
  rw [isUndefined_onProper h, foldBounds] at hdefined
  by_cases hlower : 0 ≤ x.lower
  · rw [if_pos hlower, Bool.or_eq_false_iff] at hdefined
    rcases isUndefined_iff.1 h with h | h <;> rw [hg h] at hdefined <;> simp at hdefined
  rw [if_neg hlower] at hdefined
  by_cases hupper : x.upper ≤ 0
  · rw [if_pos hupper, Bool.or_eq_false_iff] at hdefined
    rcases isUndefined_iff.1 h with h | h <;> rw [hf h] at hdefined <;> simp at hdefined
  rw [if_neg hupper, isNaN_zero, Bool.false_or, isNaN_max] at hdefined
  cases hl : Scalar.isNaN x.lower with
  | true =>
    cases hu : Scalar.isNaN x.upper with
    | true => rw [hf hl, hg hu] at hdefined; cases hdefined
    | false => exact .inl ⟨hl, (nonpos_or_pos hu).resolve_left hupper⟩
  | false =>
    have hu : Scalar.isNaN x.upper = true := (isUndefined_iff.1 h).resolve_left (by simp [hl])
    exact .inr ⟨(nonneg_or_neg hl).resolve_left hlower, hu⟩

theorem foldsAway_of_abs (h : x.isUndefined = true) (hdefined : x.abs.isUndefined = false) :
    x.FoldsAway :=
  foldsAway_of_isUndefined (f := Neg.neg) (g := id) isNaN_neg (fun h => h) h hdefined

theorem eq_zero_or_foldsAway_of_npow {n : ℕ} (h : x.isUndefined = true)
    (hdefined : (x.npow n).isUndefined = false) :
    n = 0 ∨ (n ≠ 0 ∧ n % 2 = 0 ∧ x.FoldsAway) := by
  by_cases hn : n = 0
  · exact .inl hn
  refine .inr ⟨hn, ?_⟩
  rw [npow, if_neg hn] at hdefined
  by_cases hodd : n % 2 = 1
  · have hpower :=
      isUndefined_of_of_or ((isUndefined_iff.1 h).imp (isNaN_npow · hn) (isNaN_npow · hn))
    rw [if_pos hodd, hpower] at hdefined
    cases hdefined
  · rw [if_neg hodd] at hdefined
    exact ⟨by omega, foldsAway_of_isUndefined (f := (Scalar.npow · n)) (g := (Scalar.npow · n))
      (isNaN_npow · hn) (isNaN_npow · hn) h hdefined⟩

theorem eq_zero_or_foldsAway_of_zpow {n : ℤ} (h : x.isUndefined = true)
    (hdefined : (x.zpow n).isUndefined = false) :
    n = 0 ∨ (n ≠ 0 ∧ n % 2 = 0 ∧ x.FoldsAway) := by
  have hpower : (x.npow n.natAbs).isUndefined = false := by
    rw [zpow] at hdefined
    split at hdefined
    · by_contra hne
      rw [isUndefined_recip (Bool.not_eq_false _ ▸ hne)] at hdefined
      cases hdefined
    · exact hdefined
  rcases eq_zero_or_foldsAway_of_npow h hpower with hn | ⟨hn, heven, hfold⟩
  · exact .inl (by omega)
  · exact .inr ⟨by omega, by omega, hfold⟩

theorem foldsAway_of_square (h : x.isUndefined = true) (hdefined : x.square.isUndefined = false) :
    x.FoldsAway :=
  ((eq_zero_or_foldsAway_of_zpow h hdefined).resolve_left (by decide)).2.2

theorem foldsAway_of_analyticQuotient (h : x.isUndefined = true ∨ y.isUndefined = true)
    (hdefined : (x.analyticQuotient y).isUndefined = false) : y.FoldsAway := by
  have hx : ¬ x.isUndefined = true := fun hx => by
    rw [analyticQuotient, isUndefined_mul (.inl hx)] at hdefined
    cases hdefined
  refine foldsAway_of_square (h.resolve_left hx) ?_
  by_contra hsquare
  rw [Bool.not_eq_false] at hsquare
  rw [analyticQuotient, isUndefined_mul (.inr (isUndefined_recip (isUndefined_sqrt
    (isUndefined_add (.inr hsquare)))))] at hdefined
  cases hdefined

end ModalBounds.ModalInterval
