import Mathlib
import ModalBounds.Expr.Derivative
import ModalBounds.Proofs.Expr.Interpretation
import ModalBounds.Proofs.Failure

/-!
# The chain rule

The rule for a symbol combines the derivatives of its operands linearly: `Symbol.partials` are the
coefficients, and `Expr.slope` is what comes of them along an expression. A derivative that is found
has the slope as its meaning (`meaning_of_derivativeAt`), however its constants were folded and
whatever functions the symbols are read as. What is said of a derivative is proved by
`derivativeAt_induction`.
-/

namespace ModalBounds

namespace Expr

/-! ### Derivatives that are found -/

section
variable {α : Type} {x : String} {args ds : List (Expr α)}

theorem expectOperands_eq_ok {n k : ℕ} {s : Symbol α} :
    expectOperands n s k args = .ok () ↔ args.length = k := by
  unfold expectOperands
  split <;> simp_all

theorem derivativesAt_eq_ok [Scalar α] {first : ℕ} (h : derivativesAt x first args = .ok ds) :
    List.Forall₂ (fun a d => ∃ n, derivativeAt x n a = .ok d) args ds := by
  induction args generalizing first ds with
  | nil => cases h; exact .nil
  | cons a args ih =>
    rw [derivativesAt] at h
    obtain ⟨d, hd, h⟩ := bind_eq_ok.1 h
    obtain ⟨ds', hds, h⟩ := bind_eq_ok.1 h
    obtain rfl := pure_eq_ok.1 h
    exact .cons ⟨first, hd⟩ (ih hds)

theorem exists_of_checkDerivable_power [Scalar α] {first : ℕ}
    (h : checkDerivable first .power args = .ok ()) :
    ∃ f n c, args = [f, n] ∧ n.constantValue? = some c ∧ (Scalar.integer? c).isSome := by
  obtain ⟨⟨⟩, hlen, h⟩ := bind_eq_ok.1 h
  obtain ⟨f, n, rfl⟩ := List.length_eq_two.1 (expectOperands_eq_ok.1 hlen)
  rw [expectIntegerExponent] at h
  split at h
  · rename_i hint
    obtain ⟨c, hc, hsome⟩ := Option.bind_eq_some_iff.1 (Option.some_get hint).symm
    exact ⟨f, n, c, rfl, hc, Option.isSome_of_eq_some hsome⟩
  · cases h

/-- A derivative that is found is zero without the variable, that of a leaf, or what the rule for a
symbol makes of those of the operands. -/
theorem derivativeAt_induction [Scalar α] {R : Expr α → Expr α → Prop}
    (habsent : ∀ e, ¬ e.mentions x → R e (constant 0))
    (hvar : ∀ name weight args,
      R (node (.var name weight) args) (constant (if name = x then weight else 0)))
    (hconst : ∀ c args, R (node (.const c) args) (constant 0))
    (hrule : ∀ s args ds first, isLeafSymbol s = false → checkDerivable first s args = .ok () →
      (node s args).mentions x → List.Forall₂ R args ds →
      R (node s args) (derivativeRule x s args ds))
    {e : Expr α} : ∀ {first : ℕ} {d : Expr α}, derivativeAt x first e = .ok d → R e d := by
  induction e with
  | node s args ih =>
    intro first d h
    rw [derivativeAt] at h
    split at h
    · rename_i hm
      cases h
      exact habsent _ (by simpa using hm)
    · rename_i hm
      split at h
      · rename_i hleaf
        cases h
        cases s with
        | var name weight => exact hvar name weight args
        | const c => exact hconst c args
        | _ => cases hleaf
      · rename_i hleaf
        obtain ⟨⟨⟩, hcheck, h⟩ := bind_eq_ok.1 h
        obtain ⟨ds, hds, h⟩ := bind_eq_ok.1 h
        obtain rfl := pure_eq_ok.1 h
        refine hrule s args ds first (by simpa using hleaf) hcheck (by simpa using hm) ?_
        exact ((List.forall₂_and_left _ _).2 ⟨fun a ha => ha, derivativesAt_eq_ok hds⟩).imp
          fun a d ⟨ha, n, hd⟩ => ih a ha hd

theorem forall_mem_productTerms [Scalar α] {P Q : Expr α → Prop} {before : List (Expr α)}
    (hproduct : ∀ l, (∀ a ∈ l, P a) → Q (foldProduct l)) (hbefore : ∀ a ∈ before, P a)
    (h : ∀ a ∈ args, P a) (hd : ∀ d ∈ ds, P d) : ∀ t ∈ productTerms before args ds, Q t := by
  induction args generalizing before ds with
  | nil => simp [productTerms]
  | cons f args ih =>
    cases ds with
    | nil => simp [productTerms]
    | cons d ds =>
      rw [List.forall_mem_cons] at h hd
      rw [productTerms, List.forall_mem_cons]
      refine ⟨hproduct _ ?_, ih ?_ h.2 hd.2⟩
      · exact List.forall_mem_append.2 ⟨hbefore, List.forall_mem_cons.2 ⟨hd.1, h.2⟩⟩
      · exact List.forall_mem_append.2 ⟨hbefore, by simpa using h.1⟩

end

end Expr

/-! ### Slopes -/

/-- A linear combination; surplus coefficients or values are left out. -/
def combine {F : Type} [Field F] (coefficients values : List F) : F :=
  (List.zipWith (· * ·) coefficients values).sum

section
variable {F : Type} [Field F]

@[simp] theorem combine_nil_left (ds : List F) : combine [] ds = 0 := rfl

@[simp] theorem combine_nil_right (cs : List F) : combine cs [] = 0 := by
  simp [combine]

@[simp] theorem combine_cons (c d : F) (cs ds : List F) :
    combine (c :: cs) (d :: ds) = c * d + combine cs ds := by
  simp [combine]

theorem combine_map_mul (c : F) (cs ds : List F) :
    combine (cs.map (c * ·)) ds = c * combine cs ds := by
  induction cs generalizing ds with
  | nil => simp
  | cons b cs ih =>
    cases ds with
    | nil => simp
    | cons d ds => simp only [List.map_cons, combine_cons, ih, mul_add, mul_assoc]

theorem combine_eq_zero {cs ds : List F} (h : ∀ d ∈ ds, d = 0) : combine cs ds = 0 := by
  induction ds generalizing cs with
  | nil => simp
  | cons d ds ih =>
    rw [List.forall_mem_cons] at h
    cases cs with
    | nil => simp
    | cons c cs => rw [combine_cons, h.1, mul_zero, zero_add, ih h.2]

theorem combine_const {G : Type} (c : F) {xs : List G} {ds : List F}
    (hlen : ds.length = xs.length) : combine (xs.map fun _ => c) ds = c * ds.sum := by
  induction xs generalizing ds with
  | nil => simp [List.length_eq_zero_iff.1 hlen]
  | cons x xs ih =>
    obtain ⟨d, ds, rfl⟩ := List.exists_cons_of_length_eq_add_one hlen
    simp only [List.map_cons, combine_cons, ih (Nat.succ.inj hlen), List.sum_cons, mul_add]

theorem combine_map_add {G : Type} (cs : List F) (f g : G → F) (xs : List G) :
    combine cs (xs.map fun x => f x + g x) = combine cs (xs.map f) + combine cs (xs.map g) := by
  induction cs generalizing xs with
  | nil => simp
  | cons c cs ih =>
    cases xs with
    | nil => simp
    | cons x xs =>
      simp only [List.map_cons, combine_cons, ih]
      ring

theorem combine_map_sum {G H : Type} (cs : List F) (f : H → G → F) (xs : List G) (hs : List H) :
    combine cs (xs.map fun x => (hs.map fun h => f h x).sum) =
      (hs.map fun h => combine cs (xs.map (f h))).sum := by
  induction hs with
  | nil =>
    refine combine_eq_zero fun d hd => ?_
    obtain ⟨_, -, rfl⟩ := List.mem_map.1 hd
    rfl
  | cons h hs ih => simp only [List.map_cons, List.sum_cons, combine_map_add, ih]

/-- The coefficients of the product rule: the products of all factors but one. -/
def productPartials : List F → List F
  | [] => []
  | x :: xs => xs.prod :: (productPartials xs).map (x * ·)

/-- The factor that the derivative of a power has besides that of the base. -/
noncomputable def Interpretation.powerFactor (I : Interpretation F) (x n : F) : F :=
  open Classical in if n = 0 then 0 else if n = 1 then 1 else if n = 2 then 2 * x
    else n * I.power x (n - 1)

variable {K : Type} [Field K] [Algebra K F]

/-- The partial derivatives of a symbol along its operands, at the values of these. -/
@[simp] noncomputable def Symbol.partials (I : Interpretation F) (s : Symbol K)
    (xs : List F) : List F :=
  match s, xs with
  | .add, xs => xs.map fun _ => 1
  | .sub, [_] => [-1]
  | .sub, _ :: xs => 1 :: xs.map fun _ => -1
  | .mul, xs => productPartials xs
  | .div, [x] => [-(x ^ 2)⁻¹]
  | .div, x :: xs => xs.prod⁻¹ :: (productPartials xs).map (-(x / xs.prod ^ 2) * ·)
  | .sin, [x] => [I.cos x]
  | .cos, [x] => [-I.sin x]
  | .tan, [x] => [(I.cos x ^ 2)⁻¹]
  | .tanh, [x] => [1 - I.tanh x ^ 2]
  | .log, [x] => [x⁻¹]
  | .exp, [x] => [I.exp x]
  | .square, [x] => [2 * x]
  | .sqrt, [x] => [(2 * I.sqrt x)⁻¹]
  | .power, [x, n] => [I.powerFactor x n, 0]
  | .abs, [x] => [x / I.abs x]
  | .analyticQuotient, [x, y] => [I.damping y, -(x * y * I.damping y / (1 + y ^ 2))]
  | .subFunction _, [_] => [1]
  | _, _ => []

namespace Expr

mutual

/-- The slope of an expression along the variable `x`. -/
noncomputable def slope (I : Interpretation F) (ρ : String → F) (x : String) : Expr K → F
  | node (.var name weight) _ => if name = x then algebraMap K F weight else 0
  | node s args => combine (s.partials I (meanings I ρ args)) (slopes I ρ x args)

noncomputable def slopes (I : Interpretation F) (ρ : String → F) (x : String) :
    List (Expr K) → List F
  | [] => []
  | a :: rest => slope I ρ x a :: slopes I ρ x rest

end

variable (I : Interpretation F) (ρ : String → F) (x : String)

theorem slopes_eq (args : List (Expr K)) : slopes I ρ x args = args.map (slope I ρ x) := by
  induction args with
  | nil => rfl
  | cons a rest ih => rw [slopes, ih, List.map_cons]

theorem slope_var (name : String) (weight : K) (args : List (Expr K)) :
    (node (.var name weight) args).slope I ρ x = if name = x then algebraMap K F weight else 0 := by
  rw [slope]

theorem slope_node {s : Symbol K} (h : (node s []).variableName? = none) (args : List (Expr K)) :
    (node s args).slope I ρ x =
      combine (s.partials I (args.map (meaning I ρ))) (args.map (slope I ρ x)) := by
  rw [slope, meanings_eq, slopes_eq]
  rintro name weight rfl
  cases h

theorem slope_of_not_mentions {e : Expr K} (h : ¬ e.mentions x) : e.slope I ρ x = 0 := by
  induction e with
  | node s args ih =>
    simp only [mentions, mentionsAny_eq, Bool.or_eq_true, List.any_eq_true, not_or,
      not_exists, not_and] at h
    rcases hname : (node s []).variableName? with _ | name
    · rw [slope_node I ρ x hname]
      refine combine_eq_zero fun d hd => ?_
      obtain ⟨a, ha, rfl⟩ := List.mem_map.1 hd
      exact ih a ha (h.2 a ha)
    · cases s with
      | var name' weight =>
        have hne : name' ≠ x := by simpa [variableName?] using h.1
        rw [slope_var, if_neg hne]
      | _ => cases hname

end Expr

end

namespace Expr

/-! ### Rules -/

section
variable {K F : Type} [Field K] [LinearOrder K] [FloorRing K] [Field F] [Algebra K F]
variable {I : Interpretation F} {ρ : String → F} {x : String} {args ds : List (Expr K)}

/-- Each of the derivatives has the slope of its operand as meaning. -/
def HaveSlopes (I : Interpretation F) (ρ : String → F) (x : String) :
    (args ds : List (Expr K)) → Prop :=
  List.Forall₂ fun a d => d.meaning I ρ = a.slope I ρ x

omit [LinearOrder K] [FloorRing K] in
theorem HaveSlopes.map_eq (h : HaveSlopes I ρ x args ds) :
    ds.map (meaning I ρ) = args.map (slope I ρ x) :=
  (map_eq_map_of_forall₂ (h.imp fun _ _ => Eq.symm)).symm

theorem sum_productTerms (before : List (Expr K)) :
    ((productTerms before args ds).map (meaning I ρ)).sum =
      (before.map (meaning I ρ)).prod *
        combine (productPartials (args.map (meaning I ρ))) (ds.map (meaning I ρ)) := by
  induction args generalizing before ds with
  | nil => simp [productTerms, productPartials]
  | cons a args ih =>
    cases ds with
    | nil => simp [productTerms]
    | cons d ds =>
      simp only [productTerms, productPartials, List.map_cons, List.sum_cons, ih,
        meaning_foldProduct, List.map_append, List.prod_append, List.prod_cons, List.map_nil,
        List.prod_nil, combine_cons, combine_map_mul]
      ring

theorem meaning_productRule : (productRule args ds).meaning I ρ =
    combine (productPartials (args.map (meaning I ρ))) (ds.map (meaning I ρ)) := by
  rw [productRule, meaning_foldSum, sum_productTerms, List.map_nil, List.prod_nil, one_mul]

omit [LinearOrder K] [FloorRing K] in
theorem meaning_constant_two : (constant ((2 : ℕ) : K)).meaning I ρ = 2 := by
  rw [meaning_constant, map_natCast, Nat.cast_ofNat]

omit [LinearOrder K] [FloorRing K] in
theorem quotient_eq_combination (p q c d : F) :
    (d * p - c * q) / p ^ 2 = p⁻¹ * d + -(c / p ^ 2) * q := by
  by_cases hp : p = 0
  · simp [hp]
  · field_simp
    ring

theorem meaning_quotientRule (f df g dg : Expr K) : (quotientRule f df g dg).meaning I ρ =
    (df.meaning I ρ * g.meaning I ρ - f.meaning I ρ * dg.meaning I ρ) / g.meaning I ρ ^ 2 := by
  simp [quotientRule, meaning_foldQuotient, meaning_foldDifference, meaning_foldProduct,
    meaning_foldSquare]

theorem meaning_powerRule (f d : Expr K) (n : K) : (powerRule f d n).meaning I ρ =
    I.powerFactor (f.meaning I ρ) (algebraMap K F n) * d.meaning I ρ := by
  have hinj : Function.Injective (algebraMap K F) := (algebraMap K F).injective
  have hzero : algebraMap K F n = 0 ↔ n = 0 := map_eq_zero _
  have hone : algebraMap K F n = 1 ↔ n = 1 := by rw [← map_one (algebraMap K F), hinj.eq_iff]
  have htwo : algebraMap K F n = 2 ↔ n = 2 := by rw [← map_ofNat (algebraMap K F) 2, hinj.eq_iff]
  have htwo' : n = ((2 : ℕ) : K) ↔ n = 2 := by rw [Nat.cast_ofNat]
  unfold powerRule Interpretation.powerFactor
  simp only [beq_iff_eq, htwo', hzero, hone, htwo]
  split_ifs with h0 h1 h2
  · simp
  · simp [meaning_foldProduct]
  · simp only [meaning_foldProduct, List.map_cons, List.map_nil, List.prod_cons, List.prod_nil,
      meaning_constant_two]
    ring
  · simp [meaning_foldProduct, binary, Symbol.meaning]

/-- What the chain rule makes of the derivatives of the operands. -/
noncomputable def chainRule (I : Interpretation F) (ρ : String → F) (s : Symbol K)
    (args ds : List (Expr K)) : F :=
  combine (s.partials I (args.map (meaning I ρ))) (ds.map (meaning I ρ))

-- The equations of the rule are made here once: every proof about a derivative waits for them.
attribute [local simp] derivativeRule

theorem meaning_subRule (hlen : ds.length = args.length) :
    (derivativeRule x .sub args ds).meaning I ρ = chainRule I ρ .sub args ds := by
  rw [chainRule]
  match args, ds, hlen with
  | [], [], _ => simp
  | [a], [d], _ => simp [Symbol.partials, meaning_foldNeg]
  | a :: b :: args, d :: d' :: ds, hlen =>
    have hrest : ((d' :: ds).map (meaning I ρ)).length =
        ((b :: args).map (meaning I ρ)).length := by
      simpa using hlen
    have hpartials : (Symbol.sub : Symbol K).partials I ((a :: b :: args).map (meaning I ρ)) =
        1 :: ((b :: args).map (meaning I ρ)).map fun _ => -1 := by simp [Symbol.partials]
    have hrule : derivativeRule x .sub (a :: b :: args) (d :: d' :: ds) =
        foldDifference d (foldSum (d' :: ds)) :=
      rfl
    rw [hpartials, hrule, List.map_cons (l := d' :: ds), combine_cons, combine_const (-1) hrest,
      meaning_foldDifference, meaning_foldSum]
    ring

theorem meaning_divRule (h : HaveSlopes I ρ x args ds) :
    (derivativeRule x .div args ds).meaning I ρ = chainRule I ρ .div args ds := by
  rw [chainRule]
  cases h with
  | nil => simp
  | @cons a d args ds ha h =>
    cases h with
    | nil =>
      simp [Symbol.partials, meaning_foldNeg, meaning_foldQuotient, meaning_foldSquare,
        div_eq_inv_mul]
    | @cons b d' args ds hb h =>
      cases h with
      | nil =>
        simp only [derivativeRule, meaning_quotientRule, quotient_eq_combination, Symbol.partials,
          List.map_cons, List.map_nil, combine_cons, productPartials, List.prod_nil, List.prod_cons,
          combine_nil_left]
        ring
      | @cons c d'' args ds hc h =>
        -- the rule does without the slope of a product that does not mention `x`: it is zero
        have hproduct : (if mentionsAny x (b :: c :: args)
            then productRule (b :: c :: args) (d' :: d'' :: ds)
            else constant 0).meaning I ρ =
            combine (productPartials ((b :: c :: args).map (meaning I ρ)))
              ((d' :: d'' :: ds).map (meaning I ρ)) := by
          split
          · exact meaning_productRule
          · rename_i hm
            have hall : HaveSlopes I ρ x (b :: c :: args) (d' :: d'' :: ds) := .cons hb (.cons hc h)
            rw [meaning_constant, map_zero, hall.map_eq, combine_eq_zero]
            intro z hz
            obtain ⟨g, hg, rfl⟩ := List.mem_map.1 hz
            refine slope_of_not_mentions I ρ x fun hgm => hm ?_
            rw [mentionsAny_eq, List.any_eq_true]
            exact ⟨g, hg, hgm⟩
        rw [derivativeRule, meaning_quotientRule, hproduct, quotient_eq_combination, List.map_cons,
          List.map_cons (l := d' :: d'' :: ds)]
        · simp only [Symbol.partials, combine_cons, combine_map_mul, meaning_node, Symbol.meaning,
            List.map_cons]
        all_goals simp

theorem meaning_unaryRule {s : Symbol K} {a d : Expr K}
    (hs : s = .sin ∨ s = .cos ∨ s = .tan ∨ s = .tanh ∨ s = .exp ∨ s = .log ∨
      s = .square ∨ s = .sqrt ∨
      s = .abs ∨ ∃ name, s = .subFunction name) :
    (derivativeRule x s [a] [d]).meaning I ρ = chainRule I ρ s [a] [d] := by
  rcases hs with rfl | rfl | rfl | rfl | rfl | rfl | rfl | rfl | rfl | ⟨name, rfl⟩ <;>
    simp only [derivativeRule, chainRule, Symbol.partials, unary, List.map_cons,
      List.map_nil, combine_cons, combine_nil_left, meaning_node, Symbol.meaning,
      meaning_foldProduct, meaning_foldNeg, meaning_foldQuotient, meaning_foldSquare,
      meaning_foldDifference, meaning_constant, map_one, map_ofNat, Nat.cast_ofNat, List.prod_cons,
      List.prod_nil] <;>
    ring

theorem meaning_analyticQuotientRule {a b da db : Expr K} :
    (derivativeRule x .analyticQuotient [a, b] [da, db]).meaning I ρ =
      chainRule I ρ .analyticQuotient [a, b] [da, db] := by
  simp only [chainRule, List.map_cons, List.map_nil, Symbol.partials, combine_cons,
    combine_nil_left, derivativeRule, meaning_foldDifference, meaning_foldAnalyticQuotient,
    meaning_foldQuotient, meaning_foldProduct, meaning_foldSum, meaning_foldSquare,
    meaning_constant, map_one, List.prod_cons, List.prod_nil, List.sum_cons, List.sum_nil]
  ring

/-- The rule for a symbol is the chain rule. -/
theorem meaning_derivativeRule {s : Symbol K} {first : ℕ} (hleaf : isLeafSymbol s = false)
    (hcheck : checkDerivable first s args = .ok ()) (h : HaveSlopes I ρ x args ds) :
    (derivativeRule x s args ds).meaning I ρ = chainRule I ρ s args ds := by
  have hlen : ds.length = args.length := h.length_eq.symm
  cases s with
  | var | const => cases hleaf
  | add =>
    rw [chainRule, derivativeRule, meaning_foldSum, Symbol.partials,
      combine_const 1 (by simp [hlen]), one_mul]
  | mul => rw [chainRule, derivativeRule, meaning_productRule, Symbol.partials]
  | sub => exact meaning_subRule hlen
  | div => exact meaning_divRule h
  | power =>
    obtain ⟨f, e, n, rfl, hn, -⟩ := exists_of_checkDerivable_power hcheck
    obtain _ | ⟨-, _ | ⟨-, _ | _⟩⟩ := h
    rw [derivativeRule, hn]
    simp [chainRule, Symbol.partials, meaning_powerRule, meaning_of_constantValue? I ρ hn]
  | analyticQuotient =>
    obtain ⟨a, b, rfl⟩ := List.length_eq_two.1 (expectOperands_eq_ok.1 hcheck)
    obtain _ | ⟨-, _ | ⟨-, _ | _⟩⟩ := h
    exact meaning_analyticQuotientRule
  | sin | cos | tan | tanh | log | exp | square | sqrt | abs | subFunction =>
    obtain ⟨a, rfl⟩ := List.length_eq_one_iff.1 (expectOperands_eq_ok.1 hcheck)
    obtain _ | ⟨-, _ | _⟩ := h
    exact meaning_unaryRule (by simp)
  | cube | cbrt | root | logistic | erf | min | max => cases hcheck

/-- A derivative has the slope as its meaning. -/
theorem meaning_of_derivativeAt {e d : Expr K} {first : ℕ} (h : derivativeAt x first e = .ok d) :
    d.meaning I ρ = e.slope I ρ x := by
  refine derivativeAt_induction (R := fun e d => d.meaning I ρ = e.slope I ρ x)
    (fun e hm => ?absent)
    (fun name weight args => ?var) (fun c args => ?const)
      (fun s args ds first hleaf hcheck _ hall => ?rule) h
  case absent => rw [meaning_constant, map_zero, slope_of_not_mentions I ρ x hm]
  case var =>
    rw [meaning_constant, slope_var]
    split
    · rfl
    · exact map_zero _
  case const =>
    rw [meaning_constant, map_zero, slope_node I ρ x rfl]
    simp [Symbol.partials]
  case rule =>
    have hslopes : HaveSlopes I ρ x args ds := hall
    have hname : (node s []).variableName? = none := by
      cases s with
      | var | const => simp [isLeafSymbol] at hleaf
      | _ => rfl
    rw [slope_node I ρ x hname, ← hslopes.map_eq]
    exact meaning_derivativeRule hleaf hcheck hslopes

end

end Expr

end ModalBounds
