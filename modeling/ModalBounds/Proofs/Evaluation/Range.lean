import Mathlib
import ModalBounds.Proofs.Evaluation.Recursion
import ModalBounds.Proofs.Expr.Polynomial
import ModalBounds.Proofs.Interval.Term

/-!
# Polynomial models as terms

`Expr.term` reads a polynomial model as a term over the reals, with the same values and the same
variables. Evaluated over ranges with rational bounds it has the range of that term
(`IsPolynomial.interval_eq`), so what is known of the ranges of terms holds of the evaluator.
-/

namespace ModalBounds

/-- What a binary operation does to a view of its operands, it does along a list. -/
theorem foldl_view {α β : Type} (view : α → β) (op : α → α → α) (f : β → β → β)
    (hop : ∀ a b, view (op a b) = f (view a) (view b)) (a : α) (l : List α) :
    view (l.foldl op a) = (l.map view).foldl f (view a) := by
  rw [List.foldl_map]
  exact (List.foldl_hom view fun a b => (hop a b).symm).symm

/-! ### Rational intervals -/

namespace ModalInterval

/-- The interval with its bounds read as real numbers. -/
noncomputable def toReal (x : ModalInterval ℚ) : ModalInterval ℝ := ⟨x.lower, x.upper⟩

theorem toReal_add (x y : ModalInterval ℚ) : (x + y).toReal = x.toReal + y.toReal := by
  simp [add_eq, toReal]

theorem toReal_sub (x y : ModalInterval ℚ) : (x - y).toReal = x.toReal - y.toReal := by
  simp [sub_eq, toReal]

theorem toReal_neg (x : ModalInterval ℚ) : (-x).toReal = -x.toReal := by
  simp [neg_eq, toReal]

theorem toReal_mul (x y : ModalInterval ℚ) : (x * y).toReal = x.toReal * y.toReal := by
  simp [mul_eq, toReal, posPart_def, negPart_def, Rat.cast_max]

theorem toReal_npow (x : ModalInterval ℚ) (n : ℕ) : (x.npow n).toReal = x.toReal.npow n := by
  rcases Nat.even_or_odd n with hn | hn
  · rcases eq_or_ne n 0 with rfl | h0
    · simp [npow_zero, toReal]
    · simp [npow_even _ hn h0, toReal, posPart_def, negPart_def, Rat.cast_max]
  · simp [npow_odd _ hn, toReal]

end ModalInterval

/-! ### The term of a polynomial -/

noncomputable def Symbol.term (s : Symbol ℚ) (ts : List Term) : Term :=
  match s, ts with
  | .var name weight, _ => .var name weight
  | .const c, _ => .const c
  | .add, t :: ts => ts.foldl .add t
  | .sub, [t] => .neg t
  | .sub, t :: ts => ts.foldl .sub t
  | .mul, t :: ts => ts.foldl .mul t
  | .square, [t] => .pow t 2
  | .power, [t, .const c] => .pow t ⌊c⌋₊
  | _, _ => .const 0

namespace Expr

mutual

/-- A polynomial as a term; of no meaning for other expressions. -/
noncomputable def term : Expr ℚ → Term
  | node s args => s.term (terms args)

noncomputable def terms : List (Expr ℚ) → List Term
  | [] => []
  | a :: rest => term a :: terms rest

end

theorem terms_eq (args : List (Expr ℚ)) : terms args = args.map term := by
  induction args with
  | nil => rfl
  | cons a rest ih => rw [terms, ih, List.map_cons]

theorem term_node (s : Symbol ℚ) (args : List (Expr ℚ)) :
    (node s args).term = s.term (args.map term) := by
  rw [term, terms_eq]

theorem term_constant (c : ℚ) : (constant c).term = .const c := by
  rw [constant, term_node, Symbol.term]

end Expr

namespace Term

theorem names_foldl {op : Term → Term → Term} (hop : ∀ s t, (op s t).names = s.names ++ t.names)
    (t : Term) (ts : List Term) : (ts.foldl op t).names = (t :: ts).flatMap names := by
  induction ts generalizing t with
  | nil => simp
  | cons u ts ih => rw [List.foldl_cons, ih, List.flatMap_cons, hop, List.append_assoc]; rfl

end Term

namespace Expr.IsPolynomial

variable {V : Set String} {e : Expr ℚ}

theorem names_term (h : e.IsPolynomial V) : e.term.names = e.variableOccurrences := by
  have hargs {args : List (Expr ℚ)} (ih : ∀ a ∈ args, a.term.names = a.variableOccurrences) :
      (args.map term).flatMap Term.names = args.flatMap variableOccurrences := by
    rw [List.flatMap_map]
    exact List.flatMap_congr ih
  have hnode (s : Symbol ℚ) (args : List (Expr ℚ)) (hs : (node s []).variableName? = none) :
      (node s args).variableOccurrences = args.flatMap variableOccurrences := by
    rw [variableOccurrences_node, hs, Option.toList_none, List.append_nil]
  induction h with
  | var h => rfl
  | const c => rfl
  | @add args hne h ih =>
    obtain ⟨a, rest, rfl⟩ := List.exists_cons_of_ne_nil hne
    rw [hnode .add _ rfl, ← hargs ih, term_node]
    exact Term.names_foldl (fun _ _ => rfl) _ _
  | @mul args hne h ih =>
    obtain ⟨a, rest, rfl⟩ := List.exists_cons_of_ne_nil hne
    rw [hnode .mul _ rfl, ← hargs ih, term_node]
    exact Term.names_foldl (fun _ _ => rfl) _ _
  | @sub args hne h ih =>
    rw [hnode .sub _ rfl, ← hargs ih, term_node]
    rcases args with _ | ⟨a, _ | ⟨b, rest⟩⟩
    · exact absurd rfl hne
    · simp [Symbol.term, Term.names]
    · exact Term.names_foldl (fun _ _ => rfl) _ _
  | @square a h ih =>
    rw [unary, hnode .square _ rfl, term_node, List.flatMap_singleton, ← ih]
    rfl
  | @power a n hn h ih =>
    rw [binary, hnode .power _ rfl, term_node, List.flatMap_cons, List.flatMap_singleton, ← ih,
      List.map_cons, List.map_singleton, term_constant]
    exact (List.append_nil _).symm

theorem value_term (h : e.IsPolynomial V) (ρ : String → ℝ) : e.term.value ρ = e.value ρ := by
  have hargs {args : List (Expr ℚ)} (ih : ∀ a ∈ args, a.term.value ρ = a.value ρ) :
      (args.map term).map (fun t => t.value ρ) = args.map (value ρ) := by
    rw [List.map_map]
    exact List.map_congr_left ih
  induction h with
  | @var name weight h =>
    rw [weighted, term_node, value_node, Symbol.term, Symbol.value, Term.value, mul_comm]
    rfl
  | const c => rw [term_constant, value_constant]; rfl
  | @add args hne h ih =>
    obtain ⟨a, rest, rfl⟩ := List.exists_cons_of_ne_nil hne
    rw [value_node, ← hargs ih, term_node, Symbol.value, List.sum_eq_foldl, List.map_cons,
      List.map_cons, List.foldl_cons, zero_add]
    exact foldl_view (fun t : Term => t.value ρ) .add (· + ·) (fun _ _ => rfl) _ _
  | @mul args hne h ih =>
    obtain ⟨a, rest, rfl⟩ := List.exists_cons_of_ne_nil hne
    rw [value_node, ← hargs ih, term_node, Symbol.value, List.prod_eq_foldl, List.map_cons,
      List.map_cons, List.foldl_cons, one_mul]
    exact foldl_view (fun t : Term => t.value ρ) .mul (· * ·) (fun _ _ => rfl) _ _
  | @sub args hne h ih =>
    rw [value_node, ← hargs ih, term_node]
    rcases args with _ | ⟨a, _ | ⟨b, rest⟩⟩
    · exact absurd rfl hne
    · rfl
    · exact foldl_view (fun t : Term => t.value ρ) .sub (· - ·) (fun _ _ => rfl) _ (_ :: _)
  | @square a h ih =>
    rw [unary, term_node, value_node, List.map_singleton, List.map_singleton, ← ih]
    rfl
  | @power a n hn h ih =>
    rw [binary, term_node, value_node, List.map_cons, List.map_singleton, List.map_cons,
      List.map_singleton, ← ih, term_constant, value_constant, Symbol.term, Symbol.value,
      Term.value, Rat.cast_natCast, Nat.floor_natCast, map_natCast, Real.rpow_natCast]

end Expr.IsPolynomial

/-! ### Evaluation -/

theorem Machine.powerOf_natural {α : Type} [Elementary α] {c : α} {n : ℕ}
    (hc : Scalar.toBEq.beq c c = true)
    (hint : Scalar.integer? c = some (n : ℤ)) (x : ModalInterval α) : powerOf x ⟨c, c⟩ =
      if n ≤ Expr.maxExponent then .ok (x.npow n)
      else .error (.unsupportedExponent (.value c)) := by
  have hpow : x.pow? c = if n ≤ Expr.maxExponent then some (x.npow n) else none := by
    rw [ModalInterval.pow?, ModalInterval.exponent?, hint]
    by_cases hn : n ≤ Expr.maxExponent
    · have h : (n : ℤ) ≤ 2147483647 := by exact_mod_cast hn
      simp [Option.filter, hn, h, show (-2147483648 : ℤ) ≤ n by omega, ModalInterval.zpow]
    · have h : ¬ (n : ℤ) ≤ 2147483647 := by exact_mod_cast hn
      simp [Option.filter, hn, h]
  have hpoint : (⟨c, c⟩ : ModalInterval α).isDegenerate = true := hc
  rw [powerOf, if_pos hpoint, hpow]
  split_ifs <;> rfl

/-- The ranges as real intervals; a point where there is none. -/
noncomputable def Environment.real (env : Environment ℚ) (v : String) : ModalInterval ℝ :=
  ((env v).getD ⟨0, 0⟩).toReal

namespace Expr

variable [RealFunctions ℚ] {env : Environment ℚ}

/-- The interval is the range of the term. -/
def HasRange (env : Environment ℚ) (e : Expr ℚ) : Prop :=
  ∃ y, e.interval env = .ok y ∧ y.toReal = e.term.range env.real

theorem exists_intervals {args : List (Expr ℚ)} (h : ∀ a ∈ args, a.HasRange env) :
    ∃ ys, intervals env args = .ok ys ∧
      ys.map ModalInterval.toReal = (args.map term).map fun t => t.range env.real := by
  obtain ⟨ys, hys⟩ := exists_forall₂ h
  refine ⟨ys, intervals_eq_ok.2 (hys.imp fun _ _ => And.left), ?_⟩
  rw [List.map_map]
  exact (map_eq_map_of_forall₂ (hys.imp fun _ _ h => h.2.symm)).symm

theorem HasRange.foldl {s : Symbol ℚ} {a : Expr ℚ} {rest : List (Expr ℚ)}
    {f : ModalInterval ℚ → ModalInterval ℚ → ModalInterval ℚ}
    {f' : ModalInterval ℝ → ModalInterval ℝ → ModalInterval ℝ} (op : Term → Term → Term)
    (hf : ∀ x y, (f x y).toReal = f' x.toReal y.toReal)
    (hop : ∀ t u, (op t u).range env.real = f' (t.range env.real) (u.range env.real))
    (hs : ∀ y ys, ys.length = rest.length → s.interval env (y :: ys) = .ok (ys.foldl f y))
    (hterm : (node s (a :: rest)).term = (rest.map term).foldl op a.term)
    (h : ∀ b ∈ a :: rest, b.HasRange env) : (node s (a :: rest)).HasRange env := by
  obtain ⟨_ | ⟨y, ys⟩, hys, hreal⟩ := exists_intervals h
  · cases hreal
  · simp only [List.map_cons, List.cons.injEq] at hreal
    have hlen : ys.length = rest.length := by simpa using congrArg List.length hreal.2
    refine ⟨_, (interval_node hys).trans (hs y ys hlen), ?_⟩
    rw [hterm, foldl_view _ f f' hf, hreal.1, hreal.2]
    exact (foldl_view (fun t : Term => t.range env.real) op f' hop _ _).symm

theorem HasRange.weighted {name : String} (weight : ℚ) (h : (env name).isSome) :
    (Expr.weighted name weight).HasRange env := by
  obtain ⟨y, hy⟩ := Option.isSome_iff_exists.1 h
  refine ⟨y * .point weight, ?_, ?_⟩
  · rw [Expr.weighted, interval, intervals]
    simp only [Symbol.interval, hy]
    rfl
  · rw [ModalInterval.toReal_mul, Expr.weighted, term_node, Symbol.term, Term.range,
      Environment.real, hy, ModalInterval.point_eq]
    rfl

theorem HasRange.sub {args : List (Expr ℚ)} (hne : args ≠ []) (h : ∀ a ∈ args, a.HasRange env) :
    (node .sub args).HasRange env := by
  rcases args with _ | ⟨a, _ | ⟨b, rest⟩⟩
  · exact absurd rfl hne
  · obtain ⟨y, hy, hreal⟩ := h a (by simp)
    refine ⟨-y, ?_, ?_⟩
    · rw [interval, intervals, hy]
      rfl
    · rw [ModalInterval.toReal_neg, hreal, term_node]
      rfl
  · refine .foldl .sub ModalInterval.toReal_sub (fun _ _ => rfl) ?_ (by rw [term_node]; rfl) h
    intro y ys hlen
    cases ys with
    | nil => cases hlen
    | cons z ys => rfl

end Expr

namespace Expr.IsPolynomial

variable [RealFunctions ℚ] {V : Set String} {e : Expr ℚ} {env : Environment ℚ}

theorem powerOf_natCast (x : ModalInterval ℚ) {n : ℕ} (hn : n ≤ maxExponent) :
    Machine.powerOf x ⟨n, n⟩ = .ok (x.npow n) := by
  have hint : Scalar.integer? (n : ℚ) = some (n : ℤ) := by simp [Scalar.integer?]
  rw [Machine.powerOf_natural (beq_self_eq_true _) hint, if_pos hn]

/-- Over ranges for its variables a polynomial evaluates to the range of its term. -/
theorem interval_eq (h : e.IsPolynomial V) (henv : ∀ x ∈ V, (env x).isSome) : e.HasRange env := by
  induction h with
  | @var name weight h => exact .weighted weight (henv name h)
  | const c => exact ⟨.point c, rfl, by rw [term_constant, ModalInterval.point_eq]; rfl⟩
  | @add args hne h ih =>
    obtain ⟨a, rest, rfl⟩ := List.exists_cons_of_ne_nil hne
    exact .foldl .add ModalInterval.toReal_add (fun _ _ => rfl) (fun _ _ _ => rfl)
      (by rw [term_node]; rfl) ih
  | @mul args hne h ih =>
    obtain ⟨a, rest, rfl⟩ := List.exists_cons_of_ne_nil hne
    exact .foldl .mul ModalInterval.toReal_mul (fun _ _ => rfl) (fun _ _ _ => rfl)
      (by rw [term_node]; rfl) ih
  | sub hne h ih => exact .sub hne ih
  | @square a h ih =>
    obtain ⟨y, hy, hreal⟩ := ih
    refine ⟨y.npow 2, ?_, ?_⟩
    · rw [unary, interval, intervals, hy]
      rfl
    · rw [ModalInterval.toReal_npow, hreal, unary, term_node]
      rfl
  | @power a n hn h ih =>
    obtain ⟨y, hy, hreal⟩ := ih
    refine ⟨y.npow n, ?_, ?_⟩
    · rw [binary, interval, intervals, hy, intervals, constant, interval, intervals]
      simp only [Symbol.interval, ModalInterval.point_eq]
      exact powerOf_natCast y hn
    · rw [ModalInterval.toReal_npow, hreal, binary, term_node, List.map_cons, List.map_singleton,
        term_constant, Symbol.term, Term.range, Rat.cast_natCast, Nat.floor_natCast]

end Expr.IsPolynomial

end ModalBounds
