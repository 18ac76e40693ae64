import Mathlib
import ModalBounds.Evaluation.Program
import ModalBounds.Proofs.Expr.Differentiation
import ModalBounds.Proofs.Expr.Everywhere

/-!
# Polynomial models

`IsPolynomial V e` says that `e` is built from weighted variables in `V`, constants, sums,
differences, products, squares and powers with a natural number as exponent. Such an expression has
a derivative, which is polynomial in the same variables, it compiles, and it is regular everywhere.
-/

namespace ModalBounds.Expr

/-- The greatest exponent that can be evaluated. -/
def maxExponent : ℕ := 2147483647

section
variable {K : Type} [NatCast K]

/-- The polynomials in the variables `V`. Sums, differences and products have an operand. -/
inductive IsPolynomial (V : Set String) : Expr K → Prop where
  | var {name : String} {weight : K} (h : name ∈ V) : IsPolynomial V (weighted name weight)
  | const (c : K) : IsPolynomial V (constant c)
  | add {args : List (Expr K)} (hne : args ≠ []) (h : ∀ a ∈ args, IsPolynomial V a) :
    IsPolynomial V (node .add args)
  | sub {args : List (Expr K)} (hne : args ≠ []) (h : ∀ a ∈ args, IsPolynomial V a) :
    IsPolynomial V (node .sub args)
  | mul {args : List (Expr K)} (hne : args ≠ []) (h : ∀ a ∈ args, IsPolynomial V a) :
    IsPolynomial V (node .mul args)
  | square {a : Expr K} (h : IsPolynomial V a) : IsPolynomial V (unary .square a)
  | power {a : Expr K} {n : ℕ} (hn : n ≤ maxExponent) (h : IsPolynomial V a) :
    IsPolynomial V (binary .power a (constant (n : K)))

variable {V W : Set String} {e : Expr K}

namespace IsPolynomial

theorem of_mem_preorder (h : e.IsPolynomial V) : ∀ b ∈ e.preorder, b.IsPolynomial V := by
  have hnode {s : Symbol K} {args : List (Expr K)} (hs : (node s args).IsPolynomial V)
      (hargs : ∀ a ∈ args, ∀ b ∈ a.preorder, b.IsPolynomial V) :
      ∀ b ∈ (node s args).preorder, b.IsPolynomial V := by
    intro b hb
    rw [preorder_node, List.mem_cons, List.mem_flatMap] at hb
    obtain rfl | ⟨a, ha, hb⟩ := hb
    · exact hs
    · exact hargs a ha b hb
  induction h with
  | var h => exact hnode (.var h) (by simp)
  | const c => exact hnode (.const c) (by simp)
  | add hne h ih => exact hnode (.add hne h) ih
  | sub hne h ih => exact hnode (.sub hne h) ih
  | mul hne h ih => exact hnode (.mul hne h) ih
  | square h ih => exact hnode (.square h) (by simpa using ih)
  | power hn h ih =>
    refine hnode (.power hn h) ?_
    simp only [List.mem_cons, List.not_mem_nil, or_false, forall_eq_or_imp, forall_eq]
    exact ⟨ih, hnode (.const _) (by simp)⟩

theorem mem_of_occurs (h : e.IsPolynomial V) {x : String} (hx : x ∈ e.variableOccurrences) :
    x ∈ V := by
  obtain ⟨a, ha, hax⟩ := mem_variableOccurrences_iff.1 hx
  have hpoly := h.of_mem_preorder a ha
  cases hpoly with
  | var h => cases hax; exact h
  | _ => cases hax

theorem of_forall_mem (h : e.IsPolynomial V) (hW : ∀ x ∈ e.variableOccurrences, x ∈ W) :
    e.IsPolynomial W := by
  have hargs {s : Symbol K} {args : List (Expr K)}
      (hW : ∀ x ∈ (node s args).variableOccurrences, x ∈ W) :
      ∀ a ∈ args, ∀ x ∈ a.variableOccurrences, x ∈ W :=
    fun a ha x hx => hW x (mem_variableOccurrences_of_mem ha hx)
  induction h with
  | var h => exact .var (hW _ (by simp [weighted, variableOccurrences_node, variableName?]))
  | const c => exact .const c
  | add hne h ih => exact .add hne fun a ha => ih a ha (hargs hW a ha)
  | sub hne h ih => exact .sub hne fun a ha => ih a ha (hargs hW a ha)
  | mul hne h ih => exact .mul hne fun a ha => ih a ha (hargs hW a ha)
  | square h ih => exact .square (ih (hargs hW _ (by simp)))
  | power hn h ih => exact .power hn (ih (hargs hW _ (by simp)))

end IsPolynomial

/-! ### Polynomials compile -/

omit [NatCast K] in
theorem instructions_isOk {l : List (Expr K)} (n : ℕ)
    (h : ∀ a ∈ l, ∃ op, Opcode.ofSymbol? a.symbol = some op ∧ op.accepts a.operands.length = true) :
    ∃ p, Program.instructions n l = .ok p := by
  induction l generalizing n with
  | nil => exact ⟨[], rfl⟩
  | cons a l ih =>
    obtain ⟨op, hop, hacc⟩ := h a (by simp)
    obtain ⟨p, hp⟩ := ih (n + 1) fun b hb => h b (List.mem_cons_of_mem _ hb)
    refine ⟨⟨op, a, n, a.operands.length⟩ :: p, ?_⟩
    rw [Program.instructions, Program.instruction, hop, hp]
    simp only [hacc, if_true]
    rfl

theorem IsPolynomial.exists_compile (h : e.IsPolynomial V) : ∃ p, Program.compile e = .ok p := by
  refine instructions_isOk 0 fun a ha => ?_
  cases h.of_mem_preorder a ha with
  | var h => exact ⟨_, rfl, rfl⟩
  | const c => exact ⟨_, rfl, rfl⟩
  | add hne h | sub hne h | mul hne h =>
    exact ⟨_, rfl, by simpa [Opcode.accepts, operands, Nat.one_le_iff_ne_zero] using hne⟩
  | square h => exact ⟨_, rfl, rfl⟩
  | power hn h => exact ⟨_, rfl, rfl⟩

end

/-! ### Derivatives of polynomials -/

section
variable {K : Type} [Field K] [LinearOrder K] [FloorRing K] {V : Set String}
variable {args : List (Expr K)} {a b : Expr K}

namespace IsPolynomial

omit [LinearOrder K] [FloorRing K] in
theorem ring : KeptByRing (IsPolynomial (K := K) V) where
  const := .const
  add := .add
  sub := .sub
  mul := .mul
  negated h := by
    cases h with
    | sub hne h => exact h _ (by simp)

theorem powerRule {d : Expr K} {n : ℕ} (hn : n ≤ maxExponent) (ha : a.IsPolynomial V)
    (hd : d.IsPolynomial V) : (Expr.powerRule a d (n : K)).IsPolynomial V := by
  refine ring.powerRule (fun hn0 => ?_) ha hd
  have hpred : (n : K) - 1 = ((n - 1 : ℕ) : K) :=
    (Nat.cast_pred (Nat.pos_of_ne_zero (by rintro rfl; simp at hn0))).symm
  rw [hpred]
  exact .power (by omega) ha

theorem exists_derivativesAt {x : String}
    (ih : ∀ a ∈ args, ∀ n, ∃ d, derivativeAt x n a = .ok d ∧ d.IsPolynomial V) (n : ℕ) :
    ∃ ds, derivativesAt x n args = .ok ds ∧ ds.length = args.length ∧ ∀ d ∈ ds,
      d.IsPolynomial V := by
  induction args generalizing n with
  | nil => exact ⟨[], rfl, rfl, by simp⟩
  | cons a args iha =>
    rw [List.forall_mem_cons] at ih
    obtain ⟨d, hd, hdp⟩ := ih.1 n
    obtain ⟨ds, hds, hlen, hdsp⟩ := iha ih.2 (n + a.size)
    refine ⟨d :: ds, ?_, by simp [hlen], List.forall_mem_cons.2 ⟨hdp, hdsp⟩⟩
    rw [derivativesAt, hd, hds]
    rfl

/-- A polynomial has a derivative, and that is a polynomial. -/
theorem exists_derivativeAt [IsStrictOrderedRing K] {e : Expr K} (h : e.IsPolynomial V)
    (x : String) : ∀ n, ∃ d, derivativeAt x n e = .ok d ∧ d.IsPolynomial V := by
  have hnode {s : Symbol K} {args : List (Expr K)} (hleaf : isLeafSymbol s = false)
      (hcheck : ∀ n, checkDerivable n s args = .ok ())
      (ih : ∀ a ∈ args, ∀ n, ∃ d, derivativeAt x n a = .ok d ∧ d.IsPolynomial V)
      (hrule : ∀ ds, ds.length = args.length → (∀ d ∈ ds, d.IsPolynomial V) →
        (derivativeRule x s args ds).IsPolynomial V) (n : ℕ) :
      ∃ d, derivativeAt x n (node s args) = .ok d ∧ d.IsPolynomial V := by
    rw [derivativeAt]
    by_cases hm : (node s args).mentions x
    · obtain ⟨ds, hds, hlen, hdsp⟩ := exists_derivativesAt ih (n + 1)
      refine ⟨_, ?_, hrule ds hlen hdsp⟩
      simp only [hm, Bool.not_true, Bool.false_eq_true, if_false, hleaf, hcheck, hds]
      rfl
    -- what does not mention `x` is not looked into
    · exact ⟨constant 0, by simp [hm], .const 0⟩
  have hconst (c : K) (n : ℕ) : ∃ d, derivativeAt x n (constant c) = .ok d ∧ d.IsPolynomial V := by
    rw [constant, derivativeAt]
    exact ⟨_, by simp [mentions, mentionsAny, variableName?], .const 0⟩
  induction h with
  | @var name weight h =>
    intro n
    rw [weighted, derivativeAt]
    by_cases hm : (node (.var name weight) []).mentions x
    · exact ⟨_, by simp only [hm, isLeafSymbol]; rfl, .const (if name = x then weight else 0)⟩
    · exact ⟨_, by simp only [hm]; rfl, .const 0⟩
  | const c => exact hconst c
  | @add args hne h ih => exact hnode rfl (fun _ => rfl) ih fun ds _ hds => ring.foldSum hds
  | @mul args hne h ih => exact hnode rfl (fun _ => rfl) ih fun ds _ hds => ring.productRule h hds
  | @sub args hne h ih =>
    refine hnode rfl (fun _ => by simp [checkDerivable, hne]) ih fun ds hlen hds => ?_
    rcases ds with _ | ⟨d, _ | ⟨d', ds⟩⟩
    · exact absurd (List.length_eq_zero_iff.1 hlen.symm) hne
    · exact ring.foldNeg (hds d (by simp))
    · rw [List.forall_mem_cons] at hds
      exact ring.foldDifference hds.1 (ring.foldSum hds.2)
  | @square a h ih =>
    refine hnode rfl (fun _ => rfl) (by simpa using ih) fun ds hlen hds => ?_
    obtain ⟨d, rfl⟩ := List.length_eq_one_iff.1 hlen
    rw [List.forall_mem_singleton] at hds
    exact ring.foldProduct (List.forall_mem_cons.2 ⟨.const _, by simp [h, hds]⟩)
  -- only natural exponents occur, which the check of the exponent accepts
  | @power a n hn h ih =>
    have hint : (Scalar.integer? (n : K)).isSome := by simp [Scalar.integer?]
    have hcheck (first : ℕ) : checkDerivable first .power [a, constant (n : K)] = .ok () := by
      simp only [checkDerivable, expectOperands, expectIntegerExponent, constant, constantValue?]
      simp [hint]
      rfl
    refine hnode rfl hcheck (List.forall_mem_cons.2
      ⟨ih, by simpa using hconst n⟩) fun ds hlen hds => ?_
    obtain ⟨d, d', rfl⟩ := List.length_eq_two.1 hlen
    exact powerRule hn h (hds d (by simp))

omit [LinearOrder K] [FloorRing K] in
theorem regularAt [Algebra K ℝ] {e : Expr K} (h : e.IsPolynomial V) (ρ : String → ℝ) :
    e.RegularAt ρ := by
  intro a ha
  cases h.of_mem_preorder a ha with
  | @power a n hn h =>
    intro hneg
    have hn : 0 ≤ (constant (n : K)).value ρ := by rw [value_constant, map_natCast]; positivity
    exact absurd hneg hn.not_gt
  | _ => trivial

end IsPolynomial

end

end ModalBounds.Expr
