import Mathlib
import ModalBounds.Interval.Function
import ModalBounds.Proofs.Interval.Kaucher
import ModalBounds.Proofs.Scalar.Exact

/-!
# Operations on dual operands

Over exact numbers each operation on intervals with exchanged bounds gives the interval with its
bounds exchanged. Operations that act bound by bound need nothing else. Those that act on the proper
form do so because it does not change, unless the operand is a single point; then the result has to
be a single point too (`dual_onProper`), which asks a periodic function for a finite operand and a
finite result.
-/

namespace ModalBounds

open ModalInterval

def SignPattern.exchange : SignPattern → SignPattern
  | nonneg => nonneg
  | around => aroundDual
  | aroundDual => around
  | negative => negative

theorem ModalInterval.dual_point {α : Type} [Scalar α] (c : α) :
    (ModalInterval.point c).dual = .point c := by
  simp only [point, of, collapse]
  split
  · split <;> rfl
  · rfl

namespace LawfulExact

variable {α : Type} [Elementary α] [LawfulExact α] {x y : ModalInterval α} {a : α}

theorem of_eq (a b : α) : ModalInterval.of a b = ⟨a, b⟩ := by
  rw [ModalInterval.of, collapse_eq]

theorem dual_of (a b : α) : (ModalInterval.of a b).dual = ModalInterval.of b a := by
  rw [of_eq, of_eq]
  rfl

omit [LawfulExact α] in
theorem isFinite_dual (x : ModalInterval α) : x.dual.isFinite = x.isFinite := Bool.and_comm _ _

/-! ### Bound by bound -/

theorem dual_neg (x : ModalInterval α) : (-x).dual = -x.dual := dual_of _ _

theorem dual_add (x y : ModalInterval α) : (x + y).dual = x.dual + y.dual := dual_of _ _

theorem dual_sub (x y : ModalInterval α) : (x - y).dual = x.dual - y.dual := dual_of _ _

theorem dual_exp (x : ModalInterval α) : x.exp.dual = x.dual.exp := dual_of _ _

theorem dual_tanh (x : ModalInterval α) : x.tanh.dual = x.dual.tanh := dual_of _ _

theorem dual_sqrt (x : ModalInterval α) : x.sqrt.dual = x.dual.sqrt := dual_of _ _

theorem dual_log (x : ModalInterval α) : x.log.dual = x.dual.log := by
  rw [log, log, dual_lower, dual_upper, Bool.or_comm]
  split
  · rfl
  · exact dual_of _ _

omit [LawfulExact α] in
theorem signPattern_dual (x : ModalInterval α) : x.dual.signPattern = x.signPattern.exchange := by
  by_cases hl : 0 ≤ x.lower <;> by_cases hu : 0 ≤ x.upper <;>
    simp [signPattern, SignPattern.exchange, hl, hu]

/-- Each of the sixteen cases meets the one that the dual factors fall into. -/
theorem productBounds_dual (x y : ModalInterval α) :
    productBounds x.dual y.dual = (productBounds x y).swap := by
  simp only [productBounds, signPattern_dual, dual_lower, dual_upper]
  cases x.signPattern <;> cases y.signPattern <;>
    simp only [SignPattern.exchange, Prod.swap_prod_mk, min_comm, max_comm]

theorem dual_mul (x y : ModalInterval α) : (x * y).dual = x.dual * y.dual := by
  show (mul x y).dual = mul x.dual y.dual
  rw [mul, mul, isFinite_dual, isFinite_dual, productBounds_dual]
  split
  · exact dual_of _ _
  · rfl

/-! ### By the proper form -/

theorem proper_dual (h : x.lower < x.upper ∨ x.upper < x.lower) :
    x.dual.proper = x.proper ∧ x.dual.isImproper = !x.isImproper := by
  rw [proper, proper, isImproper, isImproper, dual_lower, dual_upper]
  rcases h with h | h
  · rw [decide_eq_true h, decide_eq_false (lt_asymm h)]
    exact ⟨rfl, rfl⟩
  · rw [decide_eq_true h, decide_eq_false (lt_asymm h)]
    exact ⟨rfl, rfl⟩

theorem lt_irrefl (a : α) : ¬ a < a := fun h => lt_asymm h h

theorem onProper_self (f : α → α → α × α) (a : α) :
    (⟨a, a⟩ : ModalInterval α).onProper f = ⟨(f a a).1, (f a a).2⟩ := by
  rw [onProper, proper, isImproper, decide_eq_false (lt_irrefl a)]
  exact of_eq _ _

/-- A function on proper intervals respects duality where it takes a point to a point. -/
theorem dual_onProper {f : α → α → α × α} (hx : x.isFinite = true)
    (hpoint : ∀ a, x = ⟨a, a⟩ → (f a a).1 = (f a a).2) :
    (x.onProper f).dual = x.dual.onProper f := by
  obtain ⟨l, u⟩ := x
  rw [isFinite, Bool.and_eq_true] at hx
  have hexchange (h : l < u ∨ u < l) :
      (onProper f ⟨l, u⟩).dual = onProper f (dual ⟨l, u⟩) := by
    obtain ⟨hproper, himproper⟩ := proper_dual (x := ⟨l, u⟩) h
    rw [onProper, onProper, hproper, himproper]
    cases isImproper (⟨l, u⟩ : ModalInterval α) <;> rfl
  have hl : Scalar.isFinite l = true := hx.1
  rcases trichotomy hl hx.2 with h | h | h
  · exact hexchange (.inl h)
  · have h : l = u := h
    subst h
    show (onProper f ⟨l, l⟩).dual = onProper f ⟨l, l⟩
    rw [onProper_self, dual, hpoint l rfl]
  · exact hexchange (.inr h)

theorem dual_abs (hx : x.isFinite = true) : x.abs.dual = x.dual.abs := by
  refine dual_onProper hx fun a ha => ?_
  subst ha
  rw [isFinite, Bool.and_eq_true] at hx
  split_ifs with hl hu
  · rfl
  · rfl
  · exact absurd (nonneg_or_nonpos hx.1) (not_or.2 ⟨hl, hu⟩)

theorem dual_npow (hx : x.isFinite = true) (n : ℕ) : (x.npow n).dual = x.dual.npow n := by
  rw [npow, npow]
  split
  · exact dual_point 1
  · split
    · exact dual_of _ _
    · refine dual_onProper hx fun a ha => ?_
      subst ha
      rw [isFinite, Bool.and_eq_true] at hx
      split_ifs with hl hu
      · rfl
      · rfl
      · exact absurd (nonneg_or_nonpos hx.1) (not_or.2 ⟨hl, hu⟩)

theorem dual_recip (x : ModalInterval α) : x.recip.dual = x.dual.recip := by
  have hcond : ((decide (x.dual.proper.lower < 0) && decide (0 < x.dual.proper.upper)) ||
        (x.dual.proper.lower == 0 && x.dual.proper.upper == 0)) =
      ((decide (x.proper.lower < 0) && decide (0 < x.proper.upper)) ||
        (x.proper.lower == 0 && x.proper.upper == 0)) := by
    by_cases h : x.lower < x.upper ∨ x.upper < x.lower
    · rw [(proper_dual h).1]
    · rw [not_or] at h
      -- with bounds that are not ordered neither order has zero inside
      have hout {l u : α} (hlu : ¬ l < u) : (decide (l < 0) && decide (0 < u)) = false := by
        by_contra hne
        rw [Bool.not_eq_false, Bool.and_eq_true, decide_eq_true_eq, decide_eq_true_eq] at hne
        exact hlu (lt_of_neg_of_pos hne.1 hne.2)
      rw [proper, proper, isImproper, isImproper, dual_lower, dual_upper, decide_eq_false h.1,
        decide_eq_false h.2]
      simp only [Bool.false_eq_true, if_false, dual_lower, dual_upper, hout h.1, hout h.2,
        Bool.false_or]
      exact Bool.and_comm _ _
  simp only [recip, hcond]
  split
  · rfl
  · exact dual_of _ _

theorem dual_div (x y : ModalInterval α) : (x / y).dual = x.dual / y.dual := by
  show (x * y.recip).dual = x.dual * y.dual.recip
  rw [dual_mul, dual_recip]

theorem dual_zpow (hx : x.isFinite = true) (n : ℤ) : (x.zpow n).dual = x.dual.zpow n := by
  rw [zpow, zpow]
  split
  · rw [dual_recip, dual_npow hx]
  · exact dual_npow hx _

theorem dual_square (hx : x.isFinite = true) : x.square.dual = x.dual.square := dual_zpow hx 2

theorem dual_analyticQuotient (x : ModalInterval α) (hy : y.isFinite = true) :
    (x.analyticQuotient y).dual = x.dual.analyticQuotient y.dual := by
  rw [analyticQuotient, analyticQuotient, dual_mul, dual_recip, dual_sqrt, dual_add, dual_point,
    dual_square hy]

/-! ### Periodic functions -/

theorem reduce_self (w : Wave α) (a : α) : (w.reduce a a).1 = (w.reduce a a).2 := by
  simp only [Wave.reduce]
  split <;> simp only [if_neg (lt_irrefl _)]

omit [LawfulExact α] in
theorem wholeSteps_of_not_le (limit : ℕ) {step last : α} (h : ¬ step ≤ last) :
    Wave.wholeSteps limit step last = [] := by
  cases limit with
  | zero => rfl
  | succ limit => rw [Wave.wholeSteps, if_neg h]

theorem wholeSteps_self (limit : ℕ) (a : α) :
    ∀ t ∈ Wave.wholeSteps limit a (Elementary.floor a), t = a := by
  induction limit with
  | zero => simp [Wave.wholeSteps]
  | succ limit ih =>
    intro t ht
    rw [Wave.wholeSteps] at ht
    split at ht
    · rcases List.mem_cons.1 ht with rfl | ht
      · rfl
      · by_cases hone : a + 1 ≤ Elementary.floor a
        · rw [add_one_eq hone] at ht
          exact ih t ht
        · rw [wholeSteps_of_not_le limit hone] at ht
          cases ht
    · cases ht

theorem samplePoints_self (a : α) : ∀ t ∈ Wave.samplePoints a a, t = a := by
  intro t ht
  rw [Wave.samplePoints, List.mem_cons, List.mem_cons] at ht
  rcases ht with rfl | rfl | ht
  · rfl
  · rfl
  · by_cases hle : Elementary.ceil a ≤ Elementary.floor a
    · rw [ceil_eq hle] at ht
      exact wholeSteps_self _ a t ht
    · rw [wholeSteps_of_not_le _ hle] at ht
      cases ht

omit [Elementary α] [LawfulExact α] in
theorem foldl_choice {op : α → α → α} (hop : ∀ a b, op a b = a ∨ op a b = b)
    (l : List α) (init : α) : l.foldl op init = init ∨ l.foldl op init ∈ l := by
  induction l generalizing init with
  | nil => exact .inl rfl
  | cons b l ih =>
    rw [List.foldl_cons]
    rcases ih (op init b) with h | h
    · rw [h]
      rcases hop init b with h' | h'
      · exact .inl h'
      · exact .inr (by rw [h']; simp)
    · exact .inr (List.mem_cons_of_mem _ h)

theorem sine_range_self (ha : Scalar.isFinite a = true)
    (hl : Scalar.isFinite (Wave.sine.range a a).1 = true)
    (hu : Scalar.isFinite (Wave.sine.range a a).2 = true) :
    (Wave.sine.range a a).1 = (Wave.sine.range a a).2 := by
  have hperiod : ¬ (Wave.sine : Wave α).period ≤ a - a := not_period_le ha
  rw [Wave.range] at hl hu ⊢
  split
  · rfl
  · rename_i hnan
    simp only [hnan, ha, hperiod, if_false, Bool.not_true, Bool.or_self, decide_false,
      Bool.false_eq_true] at hl hu ⊢
    rw [← reduce_self] at hl hu ⊢
    -- all samples are the one at the point
    have hsame : ∀ v ∈ (Wave.samplePoints (Wave.sine.reduce a a).1 (Wave.sine.reduce a a).1).map
        Wave.sine.sample,
        v = Wave.sine.sample (Wave.sine.reduce a a).1 := by
      intro v hv
      obtain ⟨t, ht, rfl⟩ := List.mem_map.1 hv
      rw [samplePoints_self _ t ht]
    have hmin := foldl_choice min_choice
      ((Wave.samplePoints (Wave.sine.reduce a a).1 (Wave.sine.reduce a a).1).map Wave.sine.sample)
        Scalar.infinity
    have hmax := foldl_choice max_choice
      ((Wave.samplePoints (Wave.sine.reduce a a).1 (Wave.sine.reduce a a).1).map Wave.sine.sample)
      (-Scalar.infinity)
    rcases hmin with hmin | hmin
    · rw [hmin, isFinite_infinity] at hl
      cases hl
    · rcases hmax with hmax | hmax
      · rw [hmax, isFinite_neg_infinity] at hu
        cases hu
      · rw [hsame _ hmin, hsame _ hmax]

theorem dual_sin (hx : x.isFinite = true) (hres : x.sin.isFinite = true) :
    x.sin.dual = x.dual.sin := by
  refine dual_onProper hx fun a ha => ?_
  subst ha
  rw [ModalInterval.sin, onProper_self, isFinite, Bool.and_eq_true] at hres
  rw [isFinite, Bool.and_eq_true] at hx
  exact sine_range_self hx.1 hres.1 hres.2

theorem dual_cos (hx : x.isFinite = true) (hres : x.cos.isFinite = true) :
    x.cos.dual = x.dual.cos := by
  refine dual_onProper hx fun a ha => ?_
  subst ha
  rw [ModalInterval.cos, onProper_self, isFinite, Bool.and_eq_true] at hres
  rw [isFinite, Bool.and_eq_true] at hx
  exact sine_range_self (isFinite_add_halfPi hx.1) hres.1 hres.2

theorem dual_tan (hx : x.isFinite = true) (hres : x.tan.isFinite = true) :
    x.tan.dual = x.dual.tan := by
  refine dual_onProper hx fun a ha => ?_
  subst ha
  rw [ModalInterval.tan, onProper_self, isFinite, Bool.and_eq_true] at hres
  rw [isFinite, Bool.and_eq_true] at hx
  rw [tangentRange] at hres ⊢
  split
  · rfl
  · rename_i hnan
    simp only [hnan, hx.1, if_false, Bool.not_true, Bool.or_self, Bool.false_eq_true] at hres ⊢
    split
    · rename_i hpole
      rw [if_pos hpole, isFinite_infinity] at hres
      cases hres.2
    · rfl

end LawfulExact

end ModalBounds
