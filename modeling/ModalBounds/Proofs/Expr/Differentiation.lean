import Mathlib
import ModalBounds.Proofs.Expr.ChainRule
import ModalBounds.Proofs.Expr.Value

/-!
# Derivatives mean partial derivatives

Where an expression is regular, the value of its derivative with respect to `x` is the partial
derivative of its value. The value is the slope, as in every interpretation
(`meaning_of_derivativeAt`), so the slope has to be the partial derivative: there is one lemma for
each kind of symbol, all in terms of `HasPartialAt`, and `hasPartialAt_slope` puts them together.
-/

namespace ModalBounds

section
variable {K : Type} [Field K] [Algebra K ℝ]

/-- Whether a node is away from the points where its symbol has no value or no derivative: divisors
and the bases of negative powers are not zero, logarithms and roots are those of positive numbers,
absolute values are not taken at zero, and tangents not at a pole. -/
def Symbol.RegularAt (s : Symbol K) (xs : List ℝ) : Prop :=
  match s, xs with
  | .div, [x] => x ≠ 0
  | .div, _ :: ys => ∀ y ∈ ys, y ≠ 0
  | .log, [x] => 0 < x
  | .sqrt, [x] => 0 < x
  | .power, [x, n] => n < 0 → x ≠ 0
  | .abs, [x] => x ≠ 0
  | .tan, [x] => Real.cos x ≠ 0
  | _, _ => True

namespace Expr

/-- Whether every node is regular where the variables have the values that `ρ` gives them. -/
def RegularAt (ρ : String → ℝ) (e : Expr K) : Prop :=
  ∀ a ∈ e.preorder, a.symbol.RegularAt (a.operands.map (value ρ))

theorem RegularAt.symbol {ρ : String → ℝ} {s : Symbol K} {args : List (Expr K)}
    (h : (node s args).RegularAt ρ) : s.RegularAt (args.map (value ρ)) :=
  h _ (mem_preorder_self _)

theorem RegularAt.operand {ρ : String → ℝ} {s : Symbol K} {args : List (Expr K)}
    (h : (node s args).RegularAt ρ) {a : Expr K} (ha : a ∈ args) : a.RegularAt ρ :=
  fun b hb => h b (mem_preorder_of_mem ha hb)

/-- The value of `e` has the partial derivative `d` with respect to `x` at `ρ`. -/
def HasPartialAt (x : String) (ρ : String → ℝ) (e : Expr K) (d : ℝ) : Prop :=
  HasDerivAt (fun t => e.value (Function.update ρ x t)) d (ρ x)

end Expr

end

namespace Expr

/-! ### The chain rule for each symbol -/

section
variable {K : Type} [Field K] [Algebra K ℝ] {x : String} {ρ : String → ℝ} {args : List (Expr K)}

theorem slope_real_node {s : Symbol K} (h : (node s []).variableName? = none)
    (args : List (Expr K)) :
    (node s args).slope .real ρ x =
      combine (s.partials .real (args.map (value ρ))) (args.map (slope .real ρ x)) := by
  rw [slope_node .real ρ x h, map_value_eq]

theorem hasPartialAt_of_not_mentions {e : Expr K} (h : ¬ e.mentions x) :
    HasPartialAt x ρ e (e.slope .real ρ x) := by
  have hconst : (fun t => e.value (Function.update ρ x t)) = fun _ => e.value ρ := by
    funext t
    refine value_congr fun y hy => Function.update_of_ne ?_ _ _
    rintro rfl
    exact h ((mentions_iff y e).2 hy)
  rw [HasPartialAt, hconst, slope_of_not_mentions .real ρ x h]
  exact hasDerivAt_const _ _

theorem hasPartialAt_var (name : String) (weight : K) (args : List (Expr K)) :
    HasPartialAt x ρ (node (.var name weight) args)
      ((node (.var name weight) args).slope .real ρ x) := by
  simp only [HasPartialAt, value_node, Symbol.value, slope_var]
  split_ifs with h
  · subst h
    simpa using (hasDerivAt_id (ρ name)).const_mul (algebraMap K ℝ weight)
  · simpa [Function.update_of_ne h] using hasDerivAt_const (ρ x) (algebraMap K ℝ weight * ρ name)

theorem hasPartialAt_const (c : K) (args : List (Expr K)) :
    HasPartialAt x ρ (node (.const c) args) ((node (.const c) args).slope .real ρ x) := by
  rw [slope_real_node rfl]
  simpa [HasPartialAt] using! hasDerivAt_const (ρ x) (algebraMap K ℝ c)

theorem hasDerivAt_sum (h : ∀ a ∈ args, HasPartialAt x ρ a (a.slope .real ρ x)) :
    HasDerivAt (fun t => (args.map (value (Function.update ρ x t))).sum)
      (args.map (slope .real ρ x)).sum (ρ x) := by
  induction args with
  | nil => exact hasDerivAt_const _ _
  | cons a args ih =>
    rw [List.forall_mem_cons] at h
    exact HasDerivAt.fun_add h.1 (ih h.2)

theorem hasDerivAt_prod (h : ∀ a ∈ args, HasPartialAt x ρ a (a.slope .real ρ x)) :
    HasDerivAt (fun t => (args.map (value (Function.update ρ x t))).prod)
      (combine (productPartials (args.map (value ρ))) (args.map (slope .real ρ x))) (ρ x) := by
  induction args with
  | nil => exact hasDerivAt_const _ _
  | cons a args ih =>
    rw [List.forall_mem_cons] at h
    have hmul := HasDerivAt.fun_mul h.1 (ih h.2)
    simp only [Function.update_eq_self] at hmul
    refine hmul.congr_deriv ?_
    rw [List.map_cons, List.map_cons, productPartials, combine_cons, combine_map_mul, mul_comm]

theorem foldl_sub_eq (a : ℝ) (l : List ℝ) : l.foldl (· - ·) a = a - l.sum := by
  induction l generalizing a with
  | nil => simp
  | cons b l ih => rw [List.foldl_cons, ih, List.sum_cons, sub_sub]

theorem foldl_div_eq (a : ℝ) (l : List ℝ) : l.foldl (· / ·) a = a / l.prod := by
  induction l generalizing a with
  | nil => simp
  | cons b l ih => rw [List.foldl_cons, ih, List.prod_cons, div_div]

theorem value_sub (a b : Expr K) (rest : List (Expr K)) :
    (node .sub (a :: b :: rest)).value ρ = a.value ρ - ((b :: rest).map (value ρ)).sum := by
  rw [value_node, ← foldl_sub_eq]
  rfl

theorem value_div (a b : Expr K) (rest : List (Expr K)) :
    (node .div (a :: b :: rest)).value ρ = a.value ρ / ((b :: rest).map (value ρ)).prod := by
  rw [value_node, ← foldl_div_eq]
  rfl

theorem hasDerivAt_tanh (t : ℝ) : HasDerivAt Real.tanh (1 - Real.tanh t ^ 2) t := by
  have hcosh : Real.cosh t ≠ 0 := (Real.cosh_pos t).ne'
  have h := (Real.hasDerivAt_sinh t).div (Real.hasDerivAt_cosh t) hcosh
  have htanh : Real.tanh = Real.sinh / Real.cosh := by
    funext u; rw [Real.tanh_eq_sinh_div_cosh, Pi.div_apply]
  rw [htanh, Pi.div_apply, div_pow, one_sub_div (pow_ne_zero 2 hcosh)]
  exact h.congr_deriv (by simp only [sq])

theorem hasPartialAt_sub (h : ∀ a ∈ args, HasPartialAt x ρ a (a.slope .real ρ x))
    (hne : args ≠ []) : HasPartialAt x ρ (node .sub args) ((node .sub args).slope .real ρ x) := by
  rw [slope_real_node rfl]
  rcases args with _ | ⟨a, _ | ⟨b, args⟩⟩
  · exact absurd rfl hne
  · have hneg := (h a (by simp)).fun_neg
    simpa [HasPartialAt, Symbol.value] using! hneg
  · rw [List.forall_mem_cons] at h
    have hsub := HasDerivAt.fun_sub h.1 (hasDerivAt_sum h.2)
    simp only [HasPartialAt, value_sub]
    refine hsub.congr_deriv ?_
    show _ = combine (1 :: ((b :: args).map (value ρ)).map fun _ => -1)
      (a.slope .real ρ x :: (b :: args).map (slope .real ρ x))
    rw [combine_cons, combine_const (-1) (by simp)]
    ring

theorem hasPartialAt_div (h : ∀ a ∈ args, HasPartialAt x ρ a (a.slope .real ρ x)) (hne : args ≠ [])
    (hreg : (Symbol.div : Symbol K).RegularAt (args.map (value ρ))) :
    HasPartialAt x ρ (node .div args) ((node .div args).slope .real ρ x) := by
  rw [slope_real_node rfl]
  rcases args with _ | ⟨a, _ | ⟨b, args⟩⟩
  · exact absurd rfl hne
  · have ha0 : a.value (Function.update ρ x (ρ x)) ≠ 0 := by
      rw [Function.update_eq_self]; exact hreg
    have hinv := (h a (by simp)).fun_inv ha0
    simpa [HasPartialAt, Symbol.value, div_eq_inv_mul] using! hinv
  · rw [List.forall_mem_cons] at h
    have hprod : ((b :: args).map (value (Function.update ρ x (ρ x)))).prod ≠ 0 := by
      rw [Function.update_eq_self]
      exact List.prod_ne_zero fun h0 => hreg 0 h0 rfl
    have hdiv := HasDerivAt.fun_div h.1 (hasDerivAt_prod h.2) hprod
    simp only [Function.update_eq_self] at hdiv
    simp only [HasPartialAt, value_div]
    refine hdiv.congr_deriv ?_
    rw [quotient_eq_combination, ← combine_map_mul]
    rfl

end

section
variable {K : Type} [Field K] [LinearOrder K] [FloorRing K] [Algebra K ℝ]
variable {x : String} {ρ : String → ℝ} {args : List (Expr K)}

theorem real_powerFactor (x n : ℝ) : Interpretation.real.powerFactor x n = n * x ^ (n - 1) := by
  unfold Interpretation.powerFactor
  split_ifs with h0 h1 h2
  · rw [h0, zero_mul]
  · rw [h1, sub_self, Real.rpow_zero, one_mul]
  · rw [h2, show (2 : ℝ) - 1 = 1 by norm_num, Real.rpow_one]
  · rfl

theorem hasPartialAt_power {f e : Expr K} {n : K} (hf : HasPartialAt x ρ f (f.slope .real ρ x))
    (he : e.constantValue? = some n) (hn : (Scalar.integer? n).isSome)
    (hreg : e.value ρ < 0 → f.value ρ ≠ 0) :
    HasPartialAt x ρ (node .power [f, e]) ((node .power [f, e]).slope .real ρ x) := by
  have hint : (⌊n⌋ : K) = n := by
    by_contra h
    simp [Scalar.integer?, h] at hn
  have hexp : algebraMap K ℝ n = ⌊n⌋ := by rw [← map_intCast (algebraMap K ℝ), hint]
  have hslope : (node .power [f, e]).slope .real ρ x =
      f.slope .real ρ x * algebraMap K ℝ n * f.value ρ ^ (algebraMap K ℝ n - 1) := by
    rw [slope_real_node rfl]
    simp only [List.map_cons, List.map_nil, Symbol.partials, combine_cons, combine_nil_left,
      value_of_constantValue? ρ he, real_powerFactor]
    ring
  simp only [HasPartialAt, value_node, List.map_cons, List.map_nil, Symbol.value,
    value_of_constantValue? _ he] at hreg ⊢
  rw [hslope]
  rcases eq_or_ne n 0 with rfl | h0
  · simpa using hasDerivAt_const (ρ x) (1 : ℝ)
  -- the power has a derivative where its base is not zero, or its exponent is at least one
  · have hbase : f.value (Function.update ρ x (ρ x)) ≠ 0 ∨ 1 ≤ algebraMap K ℝ n := by
      rw [Function.update_eq_self, hexp]
      rcases lt_or_ge ⌊n⌋ 1 with hlt | hge
      · have hne : ⌊n⌋ ≠ 0 := fun h => h0 (by rw [← hint, h, Int.cast_zero])
        exact .inl (hreg (by rw [hexp]; exact_mod_cast (show ⌊n⌋ < 0 by omega)))
      · exact .inr (by exact_mod_cast hge)
    have hpow := hf.rpow_const hbase
    rwa [Function.update_eq_self] at hpow

omit [LinearOrder K] [FloorRing K] in
theorem hasPartialAt_analyticQuotient {a b : Expr K} (ha : HasPartialAt x ρ a (a.slope .real ρ x))
    (hb : HasPartialAt x ρ b (b.slope .real ρ x)) :
    HasPartialAt x ρ (node .analyticQuotient [a, b])
      ((node .analyticQuotient [a, b]).slope .real ρ x) := by
  have hpos (y : ℝ) : 0 < 1 + y ^ 2 := by positivity
  have hroot := ((hb.fun_pow 2).const_add 1).sqrt (hpos _).ne'
  have hdiv := ha.fun_div hroot (Real.sqrt_pos.2 (hpos _)).ne'
  simp only [Function.update_eq_self] at hdiv
  simp only [HasPartialAt, value_node, List.map_cons, List.map_nil, Symbol.value]
  refine hdiv.congr_deriv ?_
  have hs : √(1 + b.value ρ ^ 2) ≠ 0 := (Real.sqrt_pos.2 (hpos _)).ne'
  have hsq : √(1 + b.value ρ ^ 2) ^ 2 = 1 + b.value ρ ^ 2 := Real.sq_sqrt (hpos _).le
  rw [slope_real_node rfl]
  simp only [List.map_cons, List.map_nil, Symbol.partials, combine_cons, combine_nil_left,
    Interpretation.real_damping]
  field_simp
  rw [hsq]
  push_cast
  ring

omit [LinearOrder K] [FloorRing K] in
theorem hasPartialAt_unary {s : Symbol K} {a : Expr K} (ha : HasPartialAt x ρ a (a.slope .real ρ x))
    (hreg : s.RegularAt [a.value ρ])
    (hs : s = .sin ∨ s = .cos ∨ s = .tan ∨ s = .tanh ∨ s = .exp ∨ s = .log ∨
      s = .square ∨ s = .sqrt ∨
      s = .abs ∨ ∃ name, s = .subFunction name) :
    HasPartialAt x ρ (node s [a]) ((node s [a]).slope .real ρ x) := by
  have hself : a.value (Function.update ρ x (ρ x)) = a.value ρ := by rw [Function.update_eq_self]
  rcases hs with rfl | rfl | rfl | rfl | rfl | rfl | rfl | rfl | rfl | ⟨name, rfl⟩ <;>
    rw [slope_real_node rfl]
  · simpa [HasPartialAt, Symbol.value] using! ha.sin
  · simpa [HasPartialAt, Symbol.value] using! ha.cos
  · have htan := (Real.hasDerivAt_tan (x := a.value (Function.update ρ x (ρ x)))
      (by rw [hself]; exact hreg)).comp (ρ x) ha
    simpa [HasPartialAt, Symbol.value, Function.comp_def] using! htan
  · have htanh := (hasDerivAt_tanh (a.value (Function.update ρ x (ρ x)))).comp (ρ x) ha
    simpa [HasPartialAt, Symbol.value, Function.comp_def] using! htanh
  · simpa [HasPartialAt, Symbol.value] using! ha.exp
  · have hlog := ha.log (by rw [hself]; exact hreg.ne')
    simpa [HasPartialAt, Symbol.value, div_eq_inv_mul] using! hlog
  · simpa [HasPartialAt, Symbol.value] using! ha.fun_pow 2
  · have hsqrt := ha.sqrt (by rw [hself]; exact hreg.ne')
    simpa [HasPartialAt, Symbol.value, div_eq_inv_mul] using! hsqrt
  · have habs := (hasDerivAt_abs (x := a.value (Function.update ρ x (ρ x)))
      (by rw [hself]; exact hreg)).comp (ρ x) ha
    have hsign : (SignType.sign (a.value ρ) : ℝ) = a.value ρ / |a.value ρ| := by
      rw [eq_div_iff (abs_ne_zero.2 hreg), sign_mul_abs]
    simpa [HasPartialAt, Symbol.value, Function.comp_def, hsign] using! habs
  · simpa [HasPartialAt, Symbol.value] using! ha

/-- The slope of a checked node is its partial derivative, if those of its operands are. -/
theorem hasPartialAt_node {s : Symbol K} {first : ℕ} (hleaf : isLeafSymbol s = false)
    (hcheck : checkDerivable first s args = .ok ())
    (h : ∀ a ∈ args, HasPartialAt x ρ a (a.slope .real ρ x))
    (hreg : s.RegularAt (args.map (value ρ))) :
    HasPartialAt x ρ (node s args) ((node s args).slope .real ρ x) := by
  cases s with
  | var | const => cases hleaf
  | add =>
    simp only [HasPartialAt, value_node, Symbol.value]
    rw [slope_real_node rfl, Symbol.partials, combine_const 1 (by simp), one_mul]
    exact hasDerivAt_sum h
  | mul =>
    simp only [HasPartialAt, value_node, Symbol.value]
    rw [slope_real_node rfl, Symbol.partials]
    exact hasDerivAt_prod h
  | sub => exact hasPartialAt_sub h fun hnil => by simp [checkDerivable, hnil] at hcheck
  | div => exact hasPartialAt_div h (fun hnil => by simp [checkDerivable, hnil] at hcheck) hreg
  | power =>
    obtain ⟨f, e, n, rfl, he, hn⟩ := exists_of_checkDerivable_power hcheck
    exact hasPartialAt_power (h f (by simp)) he hn hreg
  | analyticQuotient =>
    obtain ⟨a, b, rfl⟩ := List.length_eq_two.1 (expectOperands_eq_ok.1 hcheck)
    exact hasPartialAt_analyticQuotient (h a (by simp)) (h b (by simp))
  | sin | cos | tan | tanh | log | exp | square | sqrt | abs | subFunction =>
    obtain ⟨a, rfl⟩ := List.length_eq_one_iff.1 (expectOperands_eq_ok.1 hcheck)
    exact hasPartialAt_unary (h a (by simp)) hreg (by simp)
  | cube | cbrt | root | logistic | erf | min | max => cases hcheck

/-- Where there is a derivative, the slope is the partial derivative. -/
theorem hasPartialAt_slope {e d : Expr K} {first : ℕ} (h : derivativeAt x first e = .ok d)
    (hreg : e.RegularAt ρ) : HasPartialAt x ρ e (e.slope .real ρ x) := by
  refine derivativeAt_induction
    (R := fun e _ => e.RegularAt ρ → HasPartialAt x ρ e (e.slope .real ρ x))
    (fun e hm _ => hasPartialAt_of_not_mentions hm)
      (fun name weight args _ => hasPartialAt_var name weight args)
    (fun c args _ => hasPartialAt_const c args)
      (fun s args ds first hleaf hcheck _ hall hreg => ?_) h hreg
  refine hasPartialAt_node hleaf hcheck (fun a ha => ?_) hreg.symbol
  obtain ⟨d, -, ih⟩ := exists_of_forall₂ hall a ha
  exact ih (hreg.operand ha)

theorem hasPartialAt_of_derivativeAt {e d : Expr K} {first : ℕ} (h : derivativeAt x first e = .ok d)
    (hreg : e.RegularAt ρ) : HasPartialAt x ρ e (d.value ρ) := by
  rw [value_eq_meaning, meaning_of_derivativeAt h]
  exact hasPartialAt_slope h hreg

/-- Symbolic differentiation is correct: where an expression is regular, its derivative with respect
to a variable has the partial derivative of its value as value. The constants may be taken from any
field of real numbers, the reals themselves included. -/
theorem hasDerivAt_value_derivative {e d : Expr K} (h : e.derivative x = .ok d)
    (hreg : e.RegularAt ρ) :
    HasDerivAt (fun t => e.value (Function.update ρ x t)) (d.value ρ) (ρ x) :=
  hasPartialAt_of_derivativeAt h hreg

/-- The logarithm of a variable over its negative square, at one. -/
theorem hasDerivAt_value_derivative_log_div :
    ∃ d : Expr ℚ,
      (node .div [node .log [ofVariable "x"],
        node .power [ofVariable "x", constant (-2)]]).derivative "x" =
        .ok d ∧
      RegularAt (fun _ => 1)
        (node .div [node .log [ofVariable "x"], node .power [ofVariable "x", constant (-2 : ℚ)]]) ∧
      HasDerivAt (fun t => (node .div [node .log [ofVariable "x"], node .power [ofVariable "x",
        constant (-2 : ℚ)]]).value (Function.update (fun _ => 1) "x" t))
          (d.value fun _ => 1) 1 := by
  have hreg : RegularAt (fun _ => 1)
      (node .div [node .log [ofVariable "x"],
        node .power [ofVariable "x", constant (-2 : ℚ)]]) := by
    simp [RegularAt, preorder, preorderAll, Symbol.RegularAt, symbol, operands,
      ofVariable, weighted, constant, Symbol.value]
  exact ⟨_, by rfl, hreg, hasDerivAt_value_derivative (by rfl) hreg⟩

end

end Expr

end ModalBounds
