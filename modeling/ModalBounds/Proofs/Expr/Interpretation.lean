import Mathlib
import ModalBounds.Expr.Fold
import ModalBounds.Proofs.Expr.Tree
import ModalBounds.Proofs.Scalar.Field

/-!
# Expressions over a field

An `Interpretation` in a field `F` chooses the functions that an expression may apply. Nothing is
assumed of them: that the sine is one is nowhere needed for what the folding constructors keep. They
have the meaning of the plain symbol in every interpretation (`meaning_foldSum` to
`meaning_foldAnalyticQuotient`). The quotient by zero is zero.
-/

namespace ModalBounds

/-- Functions on a field, of which nothing is assumed. -/
structure Interpretation (F : Type) where
  sin : F → F
  cos : F → F
  tan : F → F
  tanh : F → F
  log : F → F
  exp : F → F
  sqrt : F → F
  abs : F → F
  /-- The base raised to the exponent. -/
  power : F → F → F
  /-- The factor that an analytic quotient by this divisor has besides its first operand. -/
  damping : F → F

section
variable {K F : Type} [Field K] [Field F] [Algebra K F]

def Symbol.meaning (I : Interpretation F) (ρ : String → F) (s : Symbol K) (xs : List F) : F :=
  match s, xs with
  | .var name weight, _ => algebraMap K F weight * ρ name
  | .const c, _ => algebraMap K F c
  | .add, xs => xs.sum
  | .sub, [x] => -x
  | .sub, x :: xs => xs.foldl (· - ·) x
  | .mul, xs => xs.prod
  | .div, [x] => x⁻¹
  | .div, x :: xs => xs.foldl (· / ·) x
  | .sin, [x] => I.sin x
  | .cos, [x] => I.cos x
  | .tan, [x] => I.tan x
  | .tanh, [x] => I.tanh x
  | .log, [x] => I.log x
  | .exp, [x] => I.exp x
  | .square, [x] => x ^ 2
  | .sqrt, [x] => I.sqrt x
  | .power, [x, n] => I.power x n
  | .abs, [x] => I.abs x
  | .analyticQuotient, [x, y] => x * I.damping y
  | .subFunction _, [x] => x
  | _, _ => 0

theorem Symbol.meaning_congr (I : Interpretation F) {ρ σ : String → F} {s : Symbol K} (xs : List F)
    (h : ∀ name weight, s = .var name weight → ρ name = σ name) :
    s.meaning I ρ xs = s.meaning I σ xs := by
  unfold Symbol.meaning
  split
  · rw [h _ _ rfl]
  all_goals rfl

namespace Expr

mutual

/-- The meaning of an expression where each variable has the value that `ρ` gives it. -/
def meaning (I : Interpretation F) (ρ : String → F) : Expr K → F
  | node s args => s.meaning I ρ (meanings I ρ args)

def meanings (I : Interpretation F) (ρ : String → F) : List (Expr K) → List F
  | [] => []
  | a :: rest => meaning I ρ a :: meanings I ρ rest

end

theorem meanings_eq (I : Interpretation F) (ρ : String → F) (args : List (Expr K)) :
    meanings I ρ args = args.map (meaning I ρ) := by
  induction args with
  | nil => rfl
  | cons a rest ih => rw [meanings, ih, List.map_cons]

@[simp] theorem meaning_node (I : Interpretation F) (ρ : String → F) (s : Symbol K)
    (args : List (Expr K)) :
    (node s args).meaning I ρ = s.meaning I ρ (args.map (meaning I ρ)) := by
  rw [meaning, meanings_eq]

@[simp] theorem meaning_constant (I : Interpretation F) (ρ : String → F) (c : K) :
    (constant c).meaning I ρ = algebraMap K F c := by
  simp [constant, Symbol.meaning]

theorem meaning_of_constantValue? (I : Interpretation F) (ρ : String → F) {a : Expr K} {c : K}
    (h : a.constantValue? = some c) : a.meaning I ρ = algebraMap K F c := by
  obtain ⟨s, args⟩ := a
  cases s <;> cases h
  rw [meaning_node, Symbol.meaning]

end Expr

end

namespace Expr

theorem prod_map_constants {α M : Type} [CommMonoid M] (op : α → α → α) (f : α → M) (g : Expr α → M)
    (hop : ∀ a b, f (op a b) = f a * f b) (hg : ∀ a c, a.constantValue? = some c → g a = f c)
    (args : List (Expr α)) (start : α) :
    f ((constants args).foldl op start) * ((nonConstants args).map g).prod =
      f start * (args.map g).prod := by
  induction args generalizing start with
  | nil => rfl
  | cons a args ih =>
    rcases h : a.constantValue? with _ | c
    · simp only [constants, nonConstants, List.filterMap_cons, List.filter_cons, h] at ih ⊢
      simp only [Option.isNone_none, if_true, List.map_cons, List.prod_cons,
        mul_left_comm _ (g a), ih]
    · simp only [constants, nonConstants, List.filterMap_cons, List.filter_cons, h] at ih ⊢
      simp only [Option.isNone_some, Bool.false_eq_true, if_false, List.foldl_cons, List.map_cons,
        List.prod_cons, ih, hop, hg a c h, mul_assoc]

/-! ### Constructors that fold constants -/

variable {K F : Type} [Field K] [LinearOrder K] [FloorRing K] [Field F] [Algebra K F]
variable (I : Interpretation F) (ρ : String → F)

theorem meaning_of_isConstant {a : Expr K} {c : K} (h : a.isConstant c = true) :
    a.meaning I ρ = algebraMap K F c := by
  rw [isConstant] at h
  split at h
  · rename_i x hx
    rw [meaning_of_constantValue? I ρ hx, beq_iff_eq.1 h]
  · cases h

theorem meaning_foldSum (terms : List (Expr K)) :
    (foldSum terms).meaning I ρ = (terms.map (meaning I ρ)).sum := by
  have hsum := prod_map_constants (M := Multiplicative F) (· + ·)
    (fun c => .ofAdd (algebraMap K F c)) (fun a => .ofAdd (a.meaning I ρ))
    (fun a b => congrArg Multiplicative.ofAdd (map_add _ a b))
    (fun a c h => congrArg Multiplicative.ofAdd (meaning_of_constantValue? I ρ h)) terms 0
  change algebraMap K F ((constants terms).foldl (· + ·) 0) +
    ((nonConstants terms).map (meaning I ρ)).sum =
    algebraMap K F 0 + (terms.map (meaning I ρ)).sum at hsum
  have hrest : (foldSum terms).meaning I ρ = ((nonConstants terms ++
      (if (constants terms).foldl (· + ·) 0 != 0 then [constant ((constants terms).foldl (· + ·) 0)]
        else [])).map (meaning I ρ)).sum := by
    rw [foldSum]
    generalize nonConstants terms ++ _ = rest
    rcases rest with _ | ⟨a, _ | ⟨b, rest⟩⟩ <;> simp [Symbol.meaning]
  rw [hrest]
  split
  · rw [List.map_append, List.sum_append, List.map_singleton, meaning_constant, List.sum_singleton,
      add_comm, hsum, map_zero, zero_add]
  · rename_i h
    rw [bne_iff_ne, not_not] at h
    rw [h, map_zero, zero_add] at hsum
    rw [List.append_nil, hsum, zero_add]

theorem meaning_foldNeg (a : Expr K) : (foldNeg a).meaning I ρ = -a.meaning I ρ := by
  unfold foldNeg
  split
  · rename_i c h
    rw [meaning_constant, map_neg, meaning_of_constantValue? I ρ h]
  · split
    · simp [Symbol.meaning]
    · simp [unary, Symbol.meaning]

theorem meaning_foldDifference (a b : Expr K) :
    (foldDifference a b).meaning I ρ = a.meaning I ρ - b.meaning I ρ := by
  have hplain : (binary .sub a b).meaning I ρ = a.meaning I ρ - b.meaning I ρ := by
    simp [binary, Symbol.meaning]
  unfold foldDifference
  split
  · rename_i x y hx hy
    rw [meaning_constant, map_sub, meaning_of_constantValue? I ρ hx,
      meaning_of_constantValue? I ρ hy]
  · rename_i x hx _
    split
    · rename_i h
      rw [meaning_foldNeg, meaning_of_constantValue? I ρ hx, beq_iff_eq.1 h, map_zero, zero_sub]
    · exact hplain
  · rename_i y _ hy
    split
    · rename_i h
      rw [meaning_of_constantValue? I ρ hy, beq_iff_eq.1 h, map_zero, sub_zero]
    · exact hplain
  · exact hplain

omit [LinearOrder K] [FloorRing K] in
theorem meaning_plainProduct (factors : List (Expr K)) :
    (plainProduct factors).meaning I ρ = (factors.map (meaning I ρ)).prod := by
  unfold plainProduct
  split
  · simp
  · simp [Symbol.meaning]

theorem meaning_foldProduct (factors : List (Expr K)) :
    (foldProduct factors).meaning I ρ = (factors.map (meaning I ρ)).prod := by
  have hprod := prod_map_constants (· * ·) (algebraMap K F) (meaning I ρ) (map_mul _)
    (fun a c h => meaning_of_constantValue? I ρ h) factors 1
  rw [map_one, one_mul] at hprod
  rw [← hprod]
  unfold foldProduct
  dsimp only
  split
  · rename_i h
    rw [beq_iff_eq.1 h, meaning_constant, map_zero, zero_mul]
  · split
    · rename_i h
      rw [List.isEmpty_iff.1 h, meaning_constant, List.map_nil, List.prod_nil, mul_one]
    · split
      · rename_i h
        rw [meaning_foldNeg, meaning_plainProduct, beq_iff_eq.1 h, map_neg, map_one, neg_one_mul]
      · split
        · rw [meaning_node, List.map_cons, meaning_constant, Symbol.meaning, List.prod_cons]
        · rename_i h
          rw [bne_iff_ne, not_not] at h
          rw [meaning_plainProduct, h, map_one, one_mul]

theorem meaning_foldQuotient (a b : Expr K) :
    (foldQuotient a b).meaning I ρ = a.meaning I ρ / b.meaning I ρ := by
  have hplain : (binary .div a b).meaning I ρ = a.meaning I ρ / b.meaning I ρ := by
    simp [binary, Symbol.meaning]
  unfold foldQuotient
  split
  · rename_i h
    rw [meaning_constant, meaning_of_isConstant I ρ h, map_zero, zero_div]
  · split
    · rename_i h
      rw [meaning_of_isConstant I ρ h, map_one, div_one]
    · split
      · rename_i x y hx hy
        split
        · rw [meaning_constant, map_div₀, meaning_of_constantValue? I ρ hx,
            meaning_of_constantValue? I ρ hy]
        · exact hplain
      · exact hplain

theorem meaning_foldSquare (a : Expr K) : (foldSquare a).meaning I ρ = a.meaning I ρ ^ 2 := by
  unfold foldSquare
  split
  · rename_i c h
    rw [meaning_constant, map_mul, meaning_of_constantValue? I ρ h, sq]
  · simp [unary, Symbol.meaning]

theorem meaning_foldAnalyticQuotient (a b : Expr K) :
    (foldAnalyticQuotient a b).meaning I ρ = a.meaning I ρ * I.damping (b.meaning I ρ) := by
  unfold foldAnalyticQuotient
  split
  · rename_i h
    rw [meaning_constant, meaning_of_isConstant I ρ h, map_zero, zero_mul]
  · simp [binary, Symbol.meaning]

end Expr

end ModalBounds
