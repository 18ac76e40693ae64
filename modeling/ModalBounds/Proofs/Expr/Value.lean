import Mathlib
import ModalBounds.Proofs.Expr.Interpretation

/-!
# Values of expressions

The real value of an expression whose constants lie in a field of real numbers. It is the meaning in
one interpretation (`value_eq_meaning`), so what holds of meanings holds of values: the constructors
that fold constants keep them, and a derivative has the slope as its value.
-/

namespace ModalBounds

noncomputable instance rationalConstants : Algebra ℚ ℝ := DivisionRing.toRatAlgebra

section
variable {K : Type} [Field K] [Algebra K ℝ]

@[simp] noncomputable def Symbol.value (ρ : String → ℝ) (s : Symbol K) (xs : List ℝ) : ℝ :=
  match s, xs with
  | .var name weight, _ => algebraMap K ℝ weight * ρ name
  | .const c, _ => algebraMap K ℝ c
  | .add, xs => xs.sum
  | .sub, [x] => -x
  | .sub, x :: xs => xs.foldl (· - ·) x
  | .mul, xs => xs.prod
  | .div, [x] => x⁻¹
  | .div, x :: xs => xs.foldl (· / ·) x
  | .sin, [x] => Real.sin x
  | .cos, [x] => Real.cos x
  | .tan, [x] => Real.tan x
  | .tanh, [x] => Real.tanh x
  | .log, [x] => Real.log x
  | .exp, [x] => Real.exp x
  | .square, [x] => x ^ 2
  | .sqrt, [x] => √x
  | .power, [x, n] => x ^ n
  | .abs, [x] => |x|
  | .analyticQuotient, [x, y] => x / √(1 + y ^ 2)
  | .subFunction _, [x] => x
  | _, _ => 0

theorem Symbol.value_congr {ρ σ : String → ℝ} {s : Symbol K} (xs : List ℝ)
    (h : ∀ name weight, s = .var name weight → ρ name = σ name) : s.value ρ xs = s.value σ xs := by
  unfold Symbol.value
  split
  · rw [h _ _ rfl]
  all_goals rfl

namespace Expr

mutual

/-- The value of an expression where each variable has the value that `ρ` gives it. -/
noncomputable def value (ρ : String → ℝ) : Expr K → ℝ
  | node s args => s.value ρ (values ρ args)

noncomputable def values (ρ : String → ℝ) : List (Expr K) → List ℝ
  | [] => []
  | a :: rest => value ρ a :: values ρ rest

end

theorem values_eq (ρ : String → ℝ) (args : List (Expr K)) : values ρ args = args.map (value ρ) := by
  induction args with
  | nil => rfl
  | cons a rest ih => rw [values, ih, List.map_cons]

@[simp] theorem value_node (ρ : String → ℝ) (s : Symbol K) (args : List (Expr K)) :
    (node s args).value ρ = s.value ρ (args.map (value ρ)) := by
  rw [value, values_eq]

theorem value_congr {ρ σ : String → ℝ} {e : Expr K} (h : ∀ x ∈ e.variableOccurrences, ρ x = σ x) :
    e.value ρ = e.value σ := by
  induction e with
  | node s args ih =>
    have hargs : args.map (value ρ) = args.map (value σ) :=
      List.map_congr_left fun a ha => ih a ha fun x hx => h x (mem_variableOccurrences_of_mem ha hx)
    rw [value_node, value_node, hargs]
    refine Symbol.value_congr _ fun name weight hs => h name ?_
    rw [hs, variableOccurrences_node]
    exact List.mem_append_right _ (by simp [variableName?])

end Expr

end

/-! ### The real functions as an interpretation -/

@[simps] noncomputable def Interpretation.real : Interpretation ℝ where
  sin := Real.sin
  cos := Real.cos
  tan := Real.tan
  tanh := Real.tanh
  log := Real.log
  exp := Real.exp
  sqrt := Real.sqrt
  abs x := |x|
  power x n := x ^ n
  damping y := (√(1 + y ^ 2))⁻¹

section
variable {K : Type} [Field K] [Algebra K ℝ] (ρ : String → ℝ)

theorem Symbol.value_eq_meaning (s : Symbol K) (xs : List ℝ) :
    s.value ρ xs = s.meaning .real ρ xs := by
  cases s with
  | analyticQuotient =>
    rcases xs with _ | ⟨x, _ | ⟨y, _ | ⟨z, xs⟩⟩⟩
    · rfl
    · rfl
    · exact div_eq_mul_inv _ _
    · rfl
  | _ => rcases xs with _ | ⟨x, _ | ⟨y, _ | ⟨z, xs⟩⟩⟩ <;> rfl

theorem Expr.value_eq_meaning (e : Expr K) : e.value ρ = e.meaning .real ρ := by
  induction e with
  | node s args ih => rw [value_node, meaning_node, Symbol.value_eq_meaning, List.map_congr_left ih]

theorem Expr.map_value_eq (args : List (Expr K)) :
    args.map (value ρ) = args.map (meaning .real ρ) :=
  List.map_congr_left fun a _ => a.value_eq_meaning ρ

end

namespace Expr

section
variable {K : Type} [Field K] [Algebra K ℝ] (ρ : String → ℝ)

@[simp] theorem value_constant (c : K) : (constant c).value ρ = algebraMap K ℝ c := by
  rw [value_eq_meaning, meaning_constant]

theorem value_of_constantValue? {a : Expr K} {c : K} (h : a.constantValue? = some c) :
    a.value ρ = algebraMap K ℝ c := by
  rw [value_eq_meaning, meaning_of_constantValue? _ ρ h]

end

end Expr

end ModalBounds
