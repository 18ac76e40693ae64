import Mathlib
import ModalBounds.Proofs.Evaluation.Range
import ModalBounds.Proofs.Expr.Rational
import ModalBounds.Proofs.Interval.Finite

/-!
# Evaluation is isotone for inclusion

Over exact numbers without tolerance a rational model evaluates to greater intervals where its
variables have greater ones, proper or improper, as long as every divisor has zero outside its
proper form (`evaluate_isSubset_evaluate`). Over points its interval is the value of the model, so
the interval over ranges has every value over them.
-/

namespace ModalBounds

open ModalInterval Extended

/-- The second interval includes the first, and the bounds of both are finite. -/
def Included {K : Type} [LinearOrder K] {ε : K} (x y : ModalInterval (Extended ε)) : Prop :=
  ∃ a b : ModalInterval K, x = a.extend ∧ y = b.extend ∧ a ⊆ b

namespace Included

variable {K : Type} [Field K] [LinearOrder K] [FloorRing K]

theorem iff {ε : K} {x y : ModalInterval (Extended ε)} :
    Included x y ↔ x.isFinite = true ∧ y.isFinite = true ∧ x.isSubset y = true := by
  rw [ModalInterval.isFinite_iff, ModalInterval.isFinite_iff]
  constructor
  · rintro ⟨a, b, rfl, rfl, h⟩
    exact ⟨⟨a, rfl⟩, ⟨b, rfl⟩, isSubset_extend.2 h⟩
  · rintro ⟨⟨a, rfl⟩, ⟨b, rfl⟩, h⟩
    exact ⟨a, b, rfl, rfl, isSubset_extend.1 h⟩

theorem point {ε : K} (c : K) :
    Included (.point (finite c) : ModalInterval (Extended ε)) (.point (finite c)) :=
  ⟨⟨c, c⟩, ⟨c, c⟩, point_finite c, point_finite c, Subset.refl _⟩

variable [IsStrictOrderedRing K] {x x' y y' : ModalInterval (Extended (0 : K))}

theorem neg (h : Included x x') : Included (-x) (-x') := by
  obtain ⟨a, a', rfl, rfl, h⟩ := h
  exact ⟨-a, -a', (extend_neg a).symm, (extend_neg a').symm, neg_subset_neg h⟩

theorem add (h : Included x x') (h' : Included y y') : Included (x + y) (x' + y') := by
  obtain ⟨a, a', rfl, rfl, h⟩ := h
  obtain ⟨b, b', rfl, rfl, h'⟩ := h'
  exact ⟨a + b, a' + b', (extend_add a b).symm, (extend_add a' b').symm, add_subset_add h h'⟩

theorem sub (h : Included x x') (h' : Included y y') : Included (x - y) (x' - y') := by
  obtain ⟨a, a', rfl, rfl, h⟩ := h
  obtain ⟨b, b', rfl, rfl, h'⟩ := h'
  exact ⟨a - b, a' - b', (extend_sub a b).symm, (extend_sub a' b').symm, sub_subset_sub h h'⟩

theorem mul (h : Included x x') (h' : Included y y') : Included (x * y) (x' * y') := by
  obtain ⟨a, a', rfl, rfl, h⟩ := h
  obtain ⟨b, b', rfl, rfl, h'⟩ := h'
  exact ⟨a * b, a' * b', (extend_mul a b).symm, (extend_mul a' b').symm, mul_subset_mul h h'⟩

theorem recip (h : Included x x') (h0 : x.contains 0 = false) (h0' : x'.contains 0 = false) :
    Included x.recip x'.recip := by
  obtain ⟨a, a', rfl, rfl, h⟩ := h
  rw [zero_eq, contains_extend] at h0 h0'
  exact ⟨a.recip, a'.recip, (extend_recip h0).symm, (extend_recip h0').symm,
    recip_subset_recip h h0 h0'⟩

theorem div (h : Included x x') (h' : Included y y') (h0 : y.contains 0 = false)
    (h0' : y'.contains 0 = false) :
    Included (x / y) (x' / y') := h.mul (h'.recip h0 h0')

theorem abs (h : Included x x') : Included x.abs x'.abs := by
  obtain ⟨a, a', rfl, rfl, h⟩ := h
  exact ⟨a.abs, a'.abs, (extend_abs a).symm, (extend_abs a').symm, abs_subset_abs h⟩

theorem npow (h : Included x x') (n : ℕ) : Included (x.npow n) (x'.npow n) := by
  obtain ⟨a, a', rfl, rfl, h⟩ := h
  exact ⟨a.npow n, a'.npow n, (extend_npow a n).symm, (extend_npow a' n).symm, npow_subset_npow h n⟩

omit [FloorRing K] [IsStrictOrderedRing K] in
/-- An operation that keeps inclusion keeps it along a list of operands that it is good for. -/
theorem foldl {op : ModalInterval (Extended (0 : K)) → ModalInterval (Extended (0 : K)) →
    ModalInterval (Extended (0 : K))}
    (Good : ModalInterval (Extended (0 : K)) → Prop)
    (hop : ∀ {x x' y y'},
      Included x x' → Included y y' → Good y → Good y' → Included (op x y) (op x' y'))
    {ys ys' : List (ModalInterval (Extended (0 : K)))} (hall : List.Forall₂ Included ys ys')
    (hys : ∀ y ∈ ys, Good y) (hys' : ∀ y ∈ ys', Good y) (h : Included x x') :
    Included (ys.foldl op x) (ys'.foldl op x') := by
  induction hall generalizing x x' with
  | nil => exact h
  | cons hy hall ih =>
    rw [List.forall_mem_cons] at hys hys'
    exact ih hys.2 hys'.2 (hop h hy hys.1 hys'.1)

end Included

namespace Expr

/-- The operands by which a quotient divides: all but the first, or the only one. -/
def divisors {β : Type} : List β → List β
  | [] => []
  | [x] => [x]
  | _ :: xs => xs

/-- Every operand by which a quotient divides has zero outside its proper form. -/
def DivisorsExcludeZero {α : Type} [Elementary α] (env : Environment α) (e : Expr α) : Prop :=
  ∀ args, node .div args ∈ e.preorder → ∀ d ∈ divisors args, ∀ x,
    d.interval env = .ok x → x.contains 0 = false

end Expr

/-! ### One node -/

section
variable {K : Type} [Field K] [LinearOrder K] [FloorRing K] [RealFunctions K]

/-- Over included operands, so many of them, a symbol has included intervals. -/
def Symbol.Isotone (s : Symbol (Extended (0 : K))) (count : ℕ) : Prop :=
  ∀ (env₁ env₂ : Environment (Extended (0 : K))) (xs ys : List (ModalInterval (Extended (0 : K)))),
    List.Forall₂ Included xs ys → xs.length = count →
    ∃ x y, s.interval env₁ xs = .ok x ∧ s.interval env₂ ys = .ok y ∧ Included x y

namespace Symbol.Isotone

theorem subFunction (name : String) : Isotone (K := K) (.subFunction name) 1 := by
  rintro env₁ env₂ xs ys (_ | ⟨h, _ | _⟩) hlen
  · cases hlen
  · exact ⟨_, _, rfl, rfl, h⟩
  · cases hlen

variable [IsStrictOrderedRing K] {count : ℕ}

theorem add (hcount : count ≠ 0) : Isotone (K := K) .add count := by
  rintro env₁ env₂ xs ys (_ | ⟨h, hall⟩) hlen
  · exact absurd hlen.symm hcount
  · refine ⟨_, _, rfl, rfl, ?_⟩
    exact Included.foldl (fun _ => True) (fun h h' _ _ => h.add h') hall (by simp) (by simp) h

theorem mul (hcount : count ≠ 0) : Isotone (K := K) .mul count := by
  rintro env₁ env₂ xs ys (_ | ⟨h, hall⟩) hlen
  · exact absurd hlen.symm hcount
  · refine ⟨_, _, rfl, rfl, ?_⟩
    exact Included.foldl (fun _ => True) (fun h h' _ _ => h.mul h') hall (by simp) (by simp) h

theorem sub (hcount : count ≠ 0) : Isotone (K := K) .sub count := by
  rintro env₁ env₂ xs ys (_ | ⟨h, _ | ⟨h', hall⟩⟩) hlen
  · exact absurd hlen.symm hcount
  · exact ⟨_, _, rfl, rfl, h.neg⟩
  · refine ⟨_, _, rfl, rfl, ?_⟩
    exact Included.foldl (fun _ => True) (fun h h' _ _ => h.sub h') (.cons h' hall)
      (by simp) (by simp) h

theorem square : Isotone (K := K) .square 1 := by
  rintro env₁ env₂ xs ys (_ | ⟨h, _ | _⟩) hlen
  · cases hlen
  · exact ⟨_, _, rfl, rfl, h.npow 2⟩
  · cases hlen

theorem abs : Isotone (K := K) .abs 1 := by
  rintro env₁ env₂ xs ys (_ | ⟨h, _ | _⟩) hlen
  · cases hlen
  · exact ⟨_, _, rfl, rfl, h.abs⟩
  · cases hlen

end Symbol.Isotone

variable [IsStrictOrderedRing K] {env₁ env₂ : Environment (Extended (0 : K))}
variable {xs ys : List (ModalInterval (Extended (0 : K)))}

/-- A quotient is isotone where its divisors have zero outside. -/
theorem exists_div_included (hall : List.Forall₂ Included xs ys) (hne : xs ≠ [])
    (hx : ∀ x ∈ Expr.divisors xs, x.contains 0 = false)
    (hy : ∀ y ∈ Expr.divisors ys, y.contains 0 = false) :
    ∃ x y, (Symbol.div : Symbol (Extended (0 : K))).interval env₁ xs = .ok x ∧
      (Symbol.div : Symbol (Extended (0 : K))).interval env₂ ys = .ok y ∧ Included x y := by
  rcases hall with _ | ⟨h, _ | ⟨h', hall⟩⟩
  · exact absurd rfl hne
  · exact ⟨_, _, rfl, rfl,
      h.recip (hx _ (by simp [Expr.divisors])) (hy _ (by simp [Expr.divisors]))⟩
  · refine ⟨_, _, rfl, rfl, ?_⟩
    exact Included.foldl (fun y => y.contains 0 = false) Included.div (.cons h' hall) hx hy h

theorem powerOf_point {ε : K} (x : ModalInterval (Extended ε)) (n : ℕ) :
    Machine.powerOf x (.point (finite (n : K))) = if n ≤ Expr.maxExponent then .ok (x.npow n)
      else .error (.unsupportedExponent (.value (finite (n : K)))) := by
  rw [point_finite]
  refine Machine.powerOf_natural (decide_eq_true rfl) ?_ x
  show Scalar.integer? (n : K) = _
  simp [Scalar.integer?]

end

/-! ### Whole models -/

namespace Expr

section
variable {α : Type} [Elementary α] {env : Environment α} {s : Symbol α} {args : List (Expr α)}

theorem DivisorsExcludeZero.of_mem (h : (node s args).DivisorsExcludeZero env) {a : Expr α}
    (ha : a ∈ args) :
    a.DivisorsExcludeZero env := fun bs hbs => h bs (mem_preorder_of_mem ha hbs)

theorem DivisionFree.divisorsExcludeZero {e : Expr α} (h : e.DivisionFree) :
    e.DivisorsExcludeZero env :=
  fun bs hbs => absurd hbs (h bs)

theorem exists_of_mem_divisors {xs : List (ModalInterval α)} (hxs : intervals env args = .ok xs) :
    ∀ x ∈ divisors xs, ∃ d ∈ divisors args, d.interval env = .ok x := by
  rcases intervals_eq_ok.1 hxs with _ | ⟨h, _ | ⟨h', hall⟩⟩
  · simp [divisors]
  · exact exists_of_forall₂ (List.Forall₂.flip (.cons h .nil))
  · exact exists_of_forall₂ (List.Forall₂.flip (.cons h' hall))

theorem DivisorsExcludeZero.contains_eq_false {xs : List (ModalInterval α)}
    (h : (node .div args).DivisorsExcludeZero env) (hxs : intervals env args = .ok xs) :
    ∀ x ∈ divisors xs, x.contains 0 = false := by
  intro x hx
  obtain ⟨d, hd, hdx⟩ := exists_of_mem_divisors hxs x hx
  exact h _ (mem_preorder_self _) d hd x hdx

end

section
variable {K : Type} [Field K] [LinearOrder K] [FloorRing K] [RealFunctions K]
variable {env env₁ env₂ : Environment (Extended (0 : K))} {s : Symbol K}
  {args : List (Expr K)} {a : Expr K}

/-- No exponent is too great, and over these ranges every divisor has zero outside its proper
form. -/
structure Calculable (env : Environment (Extended (0 : K))) (e : Expr K) : Prop where
  exponents : e.ExponentsFit
  divisors : (e.map finite).DivisorsExcludeZero env

namespace Calculable

theorem operand (h : (node s args).Calculable env) (ha : a ∈ args) : a.Calculable env := by
  have hdivisors := h.divisors
  rw [map_node] at hdivisors
  exact ⟨h.exponents.of_mem ha, hdivisors.of_mem (List.mem_map_of_mem ha)⟩

theorem contains_eq_false (h : (node .div args).Calculable env)
    {xs : List (ModalInterval (Extended (0 : K)))}
    (hxs : intervals env (args.map (map finite)) = .ok xs) :
    ∀ x ∈ Expr.divisors xs, x.contains 0 = false := by
  have hdivisors := h.divisors
  rw [map_node] at hdivisors
  exact hdivisors.contains_eq_false hxs

theorem le_maxExponent {n : ℕ} (h : (binary .power a (constant (n : K))).Calculable env) :
    n ≤ maxExponent :=
  h.exponents a n (mem_preorder_self _)

end Calculable

/-- Each variable has a finite range that is included in its other one, and over both ranges the
expression can be calculated. -/
structure Comparable (env₁ env₂ : Environment (Extended (0 : K))) (e : Expr K) : Prop where
  first : e.Calculable env₁
  second : e.Calculable env₂
  ranges : ∀ v ∈ e.variableOccurrences, ∃ x y, env₁ v = some x ∧ env₂ v = some y ∧ Included x y

theorem Comparable.operand (h : (node s args).Comparable env₁ env₂) (ha : a ∈ args) :
    a.Comparable env₁ env₂ :=
  ⟨h.first.operand ha, h.second.operand ha, fun v hv =>
    h.ranges v (mem_variableOccurrences_of_mem ha hv)⟩

/-- The interval over the second ranges includes the one over the first. -/
def HasIncluded (env₁ env₂ : Environment (Extended (0 : K))) (e : Expr K) : Prop :=
  ∃ x y, (e.map finite).interval env₁ = .ok x ∧ (e.map finite).interval env₂ = .ok y ∧ Included x y

theorem exists_intervals_included (h : ∀ a ∈ args, a.HasIncluded env₁ env₂) :
    ∃ xs ys, intervals env₁ (args.map (map finite)) = .ok xs ∧
      intervals env₂ (args.map (map finite)) = .ok ys ∧
      List.Forall₂ Included xs ys ∧ xs.length = args.length := by
  induction args with
  | nil => exact ⟨[], [], rfl, rfl, .nil, rfl⟩
  | cons a args ih =>
    rw [List.forall_mem_cons] at h
    obtain ⟨x, y, hx, hy, hxy⟩ := h.1
    obtain ⟨xs, ys, hxs, hys, hall, hlen⟩ := ih h.2
    refine ⟨x :: xs, y :: ys, ?_, ?_, .cons hxy hall, by simp [hlen]⟩
    · rw [List.map_cons, intervals, hx, hxs]; rfl
    · rw [List.map_cons, intervals, hy, hys]; rfl

theorem HasIncluded.node (hs : (s.map finite).Isotone args.length)
    (h : ∀ a ∈ args, a.HasIncluded env₁ env₂) : (node s args).HasIncluded env₁ env₂ := by
  obtain ⟨xs, ys, hxs, hys, hall, hlen⟩ := exists_intervals_included h
  obtain ⟨x, y, hx, hy, hxy⟩ := hs env₁ env₂ xs ys hall hlen
  refine ⟨x, y, ?_, ?_, hxy⟩
  · rw [map_node, interval_node hxs, hx]
  · rw [map_node, interval_node hys, hy]

variable [IsStrictOrderedRing K]

theorem HasIncluded.div (hne : args ≠ []) (hc : (Expr.node .div args).Comparable env₁ env₂)
    (h : ∀ a ∈ args, a.HasIncluded env₁ env₂) : (Expr.node .div args).HasIncluded env₁ env₂ := by
  obtain ⟨xs, ys, hxs, hys, hall, hlen⟩ := exists_intervals_included h
  have hxs0 : xs ≠ [] := by
    rintro rfl
    exact hne (List.length_eq_zero_iff.1 hlen.symm)
  obtain ⟨x, y, hx, hy, hxy⟩ :=
    exists_div_included hall hxs0 (hc.first.contains_eq_false hxs) (hc.second.contains_eq_false hys)
  refine ⟨x, y, ?_, ?_, hxy⟩
  · rw [map_node, interval_node hxs]
    exact hx
  · rw [map_node, interval_node hys]
    exact hy

theorem interval_power {ε : K} {env : Environment (Extended ε)} {a : Expr K} {n : ℕ}
    {x : ModalInterval (Extended ε)}
    (hx : (a.map finite).interval env = .ok x) :
    ((binary .power a (constant (n : K))).map finite).interval env = if n ≤ maxExponent
    then .ok (x.npow n)
      else .error (.unsupportedExponent (.value (finite (n : K)))) := by
  have hargs : intervals env ([a, constant (n : K)].map (map finite)) =
      .ok [x, .point (finite (n : K))] := by
    rw [List.map_cons, intervals, hx]
    rfl
  rw [binary, map_node, interval_node hargs]
  exact powerOf_point x n

/-- Over included ranges a rational model evaluates to included intervals. -/
theorem IsRational.interval_included {e : Expr K} (he : e.IsRational)
    (hc : e.Comparable env₁ env₂) : e.HasIncluded env₁ env₂ := by
  induction he with
  | var name weight =>
    obtain ⟨x, y, hx, hy, h⟩ :=
      hc.ranges name (by simp [weighted, variableOccurrences_node, variableName?])
    refine ⟨x * .point (finite weight), y * .point (finite weight), ?_, ?_, h.mul (.point weight)⟩
    · rw [weighted, map_node, interval_node rfl]
      simp only [Symbol.map, Symbol.interval, hx]
    · rw [weighted, map_node, interval_node rfl]
      simp only [Symbol.map, Symbol.interval, hy]
  | const c => exact ⟨.point (finite c), .point (finite c), rfl, rfl, .point c⟩
  | add hne h ih => exact .node (.add (by simpa using hne)) fun a ha => ih a ha (hc.operand ha)
  | mul hne h ih => exact .node (.mul (by simpa using hne)) fun a ha => ih a ha (hc.operand ha)
  | sub hne h ih => exact .node (.sub (by simpa using hne)) fun a ha => ih a ha (hc.operand ha)
  | div hne h ih => exact .div hne hc fun a ha => ih a ha (hc.operand ha)
  | square h ih => exact .node .square (by simpa using ih (hc.operand (by simp)))
  | abs h ih => exact .node .abs (by simpa using ih (hc.operand (by simp)))
  | subFunction name h ih =>
    exact .node (.subFunction name) (by simpa using ih (hc.operand (by simp)))
  | power n h ih =>
    have hn := hc.first.le_maxExponent
    obtain ⟨x, y, hx, hy, hxy⟩ := ih (hc.operand (by simp))
    exact ⟨_, _, (interval_power hx).trans (if_pos hn),
      (interval_power hy).trans (if_pos hn), hxy.npow n⟩

theorem exponentsFit_of_interval_eq_ok {ε : K} {env : Environment (Extended ε)} {e : Expr K}
    {x : ModalInterval (Extended ε)} (h : (e.map finite).interval env = .ok x) :
    e.ExponentsFit := by
  intro a n ha
  have hmem : (binary .power a (constant (n : K))).map finite ∈
      (e.map (finite : K → Extended ε)).preorder := by
    rw [preorder_map]
    exact List.mem_map_of_mem ha
  obtain ⟨y, hy⟩ := exists_interval_of_mem_preorder h _ hmem
  rw [binary, map_node] at hy
  obtain ⟨zs, hzs, hy⟩ := bind_eq_ok.1 hy
  obtain ⟨z, hz, hzs⟩ := bind_eq_ok.1 hzs
  cases hzs
  by_contra hn
  have herror := hy.symm.trans ((powerOf_point z n).trans (if_neg hn))
  cases herror

end

end Expr

/-! ### Points -/

/-- A rational number as a point. -/
def exactPoint (c : ℚ) : ModalInterval (Extended (0 : ℚ)) := extend ⟨c, c⟩

theorem point_eq_exactPoint (c : ℚ) :
    (.point (finite c) : ModalInterval (Extended (0 : ℚ))) = exactPoint c :=
  point_finite c

theorem neg_exactPoint (a : ℚ) : -exactPoint a = exactPoint (-a) := by
  rw [exactPoint, exactPoint, ← extend_neg, neg_eq]

theorem add_exactPoint (a b : ℚ) : exactPoint a + exactPoint b = exactPoint (a + b) := by
  rw [exactPoint, exactPoint, exactPoint, ← extend_add, add_eq]

theorem sub_exactPoint (a b : ℚ) : exactPoint a - exactPoint b = exactPoint (a - b) := by
  rw [exactPoint, exactPoint, exactPoint, ← extend_sub, sub_eq]

theorem mul_exactPoint (a b : ℚ) : exactPoint a * exactPoint b = exactPoint (a * b) := by
  rw [exactPoint, exactPoint, exactPoint, ← extend_mul, mul_point]

theorem npow_exactPoint (a : ℚ) (n : ℕ) : (exactPoint a).npow n = exactPoint (a ^ n) := by
  rw [exactPoint, exactPoint, ← extend_npow, npow_point]

theorem abs_exactPoint (a : ℚ) : (exactPoint a).abs = exactPoint |a| := by
  have h : max a⁺ a⁻ = |a| := by
    rcases le_total 0 a with h | h
    · rw [posPart_of_nonneg h, negPart_of_nonneg h, abs_of_nonneg h, max_eq_left h]
    · rw [posPart_of_nonpos h, negPart_of_nonpos h, abs_of_nonpos h, max_eq_right (neg_nonneg.2 h)]
  rw [exactPoint, exactPoint, ← extend_abs, ModalInterval.abs_eq, h]

theorem contains_zero_exactPoint {a : ℚ} : (exactPoint a).contains 0 = false ↔ a ≠ 0 := by
  rw [exactPoint, zero_eq, contains_extend, contains_zero_eq_false, and_self, and_self, ne_comm]
  exact lt_or_lt_iff_ne

theorem recip_exactPoint {a : ℚ} (ha : a ≠ 0) : (exactPoint a).recip = exactPoint a⁻¹ := by
  have h := contains_zero_exactPoint.2 ha
  rw [exactPoint, zero_eq, contains_extend] at h
  rw [exactPoint, exactPoint, ← extend_recip h, recip_eq h]

theorem div_exactPoint (a : ℚ) {b : ℚ} (hb : b ≠ 0) :
    exactPoint a / exactPoint b = exactPoint (a / b) := by
  rw [div_eq_mul_inv, ← mul_exactPoint, ← recip_exactPoint hb]
  rfl

section
variable [RealFunctions ℚ]

/-- Over points, so many of them, a symbol has the point of its value. -/
def Symbol.HasValueOnPoints (s : Symbol ℚ) (count : ℕ) : Prop :=
  ∀ (env : Environment (Extended (0 : ℚ))) (ρ : String → ℝ) (cs : List ℚ), cs.length = count →
    ∃ c : ℚ, (s.map finite).interval env (cs.map exactPoint) = .ok (exactPoint c) ∧
      s.value ρ (cs.map fun c : ℚ => (c : ℝ)) = c

namespace Symbol.HasValueOnPoints

variable {count : ℕ}

theorem add (hcount : count ≠ 0) : HasValueOnPoints .add count := by
  rintro env ρ (_ | ⟨c, cs⟩) hlen
  · exact absurd hlen.symm hcount
  · refine ⟨cs.foldl (· + ·) c, ?_, ?_⟩
    · exact congrArg _ (foldl_view exactPoint _ _ (fun a b => (add_exactPoint a b).symm) c cs).symm
    · rw [Symbol.value, List.sum_eq_foldl, List.map_cons, List.foldl_cons, zero_add]
      exact (foldl_view (fun c : ℚ => (c : ℝ)) _ _ Rat.cast_add c cs).symm

theorem mul (hcount : count ≠ 0) : HasValueOnPoints .mul count := by
  rintro env ρ (_ | ⟨c, cs⟩) hlen
  · exact absurd hlen.symm hcount
  · refine ⟨cs.foldl (· * ·) c, ?_, ?_⟩
    · exact congrArg _ (foldl_view exactPoint _ _ (fun a b => (mul_exactPoint a b).symm) c cs).symm
    · rw [Symbol.value, List.prod_eq_foldl, List.map_cons, List.foldl_cons, one_mul]
      exact (foldl_view (fun c : ℚ => (c : ℝ)) _ _ Rat.cast_mul c cs).symm

theorem sub (hcount : count ≠ 0) : HasValueOnPoints .sub count := by
  rintro env ρ (_ | ⟨c, _ | ⟨d, cs⟩⟩) hlen
  · exact absurd hlen.symm hcount
  · exact ⟨-c, congrArg _ (neg_exactPoint c), (Rat.cast_neg c).symm⟩
  · refine ⟨(d :: cs).foldl (· - ·) c, ?_, ?_⟩
    · exact congrArg _
        (foldl_view exactPoint _ _ (fun a b => (sub_exactPoint a b).symm) c (d :: cs)).symm
    · exact (foldl_view (fun c : ℚ => (c : ℝ)) _ _ Rat.cast_sub c (d :: cs)).symm

theorem square : HasValueOnPoints .square 1 := by
  rintro env ρ (_ | ⟨c, _ | _⟩) hlen
  · cases hlen
  · exact ⟨c ^ 2, congrArg _ (npow_exactPoint c 2), (Rat.cast_pow c 2).symm⟩
  · cases hlen

theorem abs : HasValueOnPoints .abs 1 := by
  rintro env ρ (_ | ⟨c, _ | _⟩) hlen
  · cases hlen
  · exact ⟨|c|, congrArg _ (abs_exactPoint c), (Rat.cast_abs c).symm⟩
  · cases hlen

theorem subFunction (name : String) : HasValueOnPoints (.subFunction name) 1 := by
  rintro env ρ (_ | ⟨c, _ | _⟩) hlen
  · cases hlen
  · exact ⟨c, rfl, rfl⟩
  · cases hlen

end Symbol.HasValueOnPoints

theorem exists_div_value (env : Environment (Extended (0 : ℚ))) (ρ : String → ℝ) {cs : List ℚ}
    (hne : cs ≠ [])
    (hcs : ∀ x ∈ Expr.divisors (cs.map exactPoint), x.contains 0 = false) :
    ∃ c : ℚ, ((Symbol.div : Symbol ℚ).map finite).interval env (cs.map exactPoint) =
      .ok (exactPoint c) ∧
      (Symbol.div : Symbol ℚ).value ρ (cs.map fun c : ℚ => (c : ℝ)) = c := by
  have hfold (d : ℚ) (ds : List ℚ) (hds : ∀ x ∈ ds.map exactPoint, x.contains 0 = false) :
      (ds.map exactPoint).foldl (· / ·) (exactPoint d) = exactPoint (ds.foldl (· / ·) d) := by
    induction ds generalizing d with
    | nil => rfl
    | cons a ds ih =>
      rw [List.map_cons, List.forall_mem_cons, contains_zero_exactPoint] at hds
      rw [List.map_cons, List.foldl_cons, List.foldl_cons, div_exactPoint d hds.1, ih _ hds.2]
  rcases cs with _ | ⟨c, _ | ⟨d, cs⟩⟩
  · exact absurd rfl hne
  · have hc := contains_zero_exactPoint.1 (hcs (exactPoint c) (by simp [Expr.divisors]))
    exact ⟨c⁻¹, congrArg _ (recip_exactPoint hc), (Rat.cast_inv c).symm⟩
  · refine ⟨(d :: cs).foldl (· / ·) c, congrArg _ (hfold c (d :: cs) hcs), ?_⟩
    exact (foldl_view (fun c : ℚ => (c : ℝ)) _ _ Rat.cast_div c (d :: cs)).symm

namespace Expr

/-- Each variable has a point as range, over which the expression can be calculated. -/
structure CalculableAt (env : Environment (Extended (0 : ℚ))) (ρ : String → ℚ) (e : Expr ℚ) : Prop
    extends Calculable env e where
  points : ∀ v ∈ e.variableOccurrences, env v = some (exactPoint (ρ v))

/-- The interval is the point of the value. -/
def HasPoint (env : Environment (Extended (0 : ℚ))) (ρ : String → ℚ) (e : Expr ℚ) : Prop :=
  ∃ c : ℚ, (e.map finite).interval env = .ok (exactPoint c) ∧ e.value (fun v => (ρ v : ℝ)) = c

variable {env : Environment (Extended (0 : ℚ))} {ρ : String → ℚ} {s : Symbol ℚ}
  {args : List (Expr ℚ)} {a : Expr ℚ}

theorem CalculableAt.operand (h : (node s args).CalculableAt env ρ) (ha : a ∈ args) :
    a.CalculableAt env ρ :=
  ⟨h.toCalculable.operand ha, fun v hv => h.points v (mem_variableOccurrences_of_mem ha hv)⟩

theorem exists_intervals_exactPoint (h : ∀ a ∈ args, a.HasPoint env ρ) :
    ∃ cs : List ℚ, intervals env (args.map (map finite)) = .ok (cs.map exactPoint) ∧
      args.map (value fun v => (ρ v : ℝ)) = cs.map (fun c : ℚ => (c : ℝ)) ∧
      cs.length = args.length := by
  obtain ⟨cs, hcs⟩ := exists_forall₂ h
  refine ⟨cs, ?_, map_eq_map_of_forall₂ (hcs.imp fun _ _ => And.right), hcs.length_eq.symm⟩
  rw [intervals_eq_ok, List.forall₂_map_left_iff, List.forall₂_map_right_iff]
  exact hcs.imp fun _ _ => And.left

theorem HasPoint.node (hs : s.HasValueOnPoints args.length) (h : ∀ a ∈ args, a.HasPoint env ρ) :
    (node s args).HasPoint env ρ := by
  obtain ⟨cs, hcs, hvalues, hlen⟩ := exists_intervals_exactPoint h
  rw [HasPoint, map_node, interval_node hcs, value_node, hvalues]
  exact hs env _ cs hlen

theorem HasPoint.div (hne : args ≠ []) (hc : (Expr.node .div args).CalculableAt env ρ)
    (h : ∀ a ∈ args, a.HasPoint env ρ) : (Expr.node .div args).HasPoint env ρ := by
  obtain ⟨cs, hcs, hvalues, hlen⟩ := exists_intervals_exactPoint h
  have hcs0 : cs ≠ [] := by
    rintro rfl
    exact hne (List.length_eq_zero_iff.1 hlen.symm)
  rw [HasPoint, map_node, interval_node hcs, value_node, hvalues]
  exact exists_div_value env _ hcs0 (hc.contains_eq_false hcs)

theorem IsRational.interval_exactPoint {e : Expr ℚ} (he : e.IsRational)
    (hc : e.CalculableAt env ρ) : e.HasPoint env ρ := by
  induction he with
  | var name weight =>
    have hx := hc.points name (by simp [weighted, variableOccurrences_node, variableName?])
    refine ⟨ρ name * weight, ?_, ?_⟩
    · rw [weighted, map_node, interval_node rfl, ← mul_exactPoint, ← point_eq_exactPoint weight]
      simp only [Symbol.map, Symbol.interval, hx]
    · rw [weighted, value_node, Symbol.value, Rat.cast_mul, mul_comm]
      rfl
  | const c => exact ⟨c, congrArg _ (point_eq_exactPoint c), value_constant _ c⟩
  | add hne h ih => exact .node (.add (by simpa using hne)) fun a ha => ih a ha (hc.operand ha)
  | mul hne h ih => exact .node (.mul (by simpa using hne)) fun a ha => ih a ha (hc.operand ha)
  | sub hne h ih => exact .node (.sub (by simpa using hne)) fun a ha => ih a ha (hc.operand ha)
  | div hne h ih => exact .div hne hc fun a ha => ih a ha (hc.operand ha)
  | square h ih => exact .node .square (by simpa using ih (hc.operand (by simp)))
  | abs h ih => exact .node .abs (by simpa using ih (hc.operand (by simp)))
  | subFunction name h ih =>
    exact .node (.subFunction name) (by simpa using ih (hc.operand (by simp)))
  | power n h ih =>
    obtain ⟨c, hinterval, hvalue⟩ := ih (hc.operand (by simp))
    refine ⟨c ^ n, ?_, ?_⟩
    · rw [interval_power hinterval, if_pos hc.le_maxExponent, npow_exactPoint]
    · rw [binary, value_node, List.map_cons, List.map_singleton, value_constant,
        hvalue, Symbol.value, map_natCast, Real.rpow_natCast, Rat.cast_pow]

/-- Evaluation is isotone: where each variable has a finite range that is included in its other
range, and in both runs no divisor has zero in its proper form, the results are included. Both runs
fail if an exponent is too great to be evaluated, and only then. Over points the result is the value
of the model. -/
theorem evaluate_isSubset_evaluate {e : Expr ℚ} (he : e.IsRational)
    {r₁ r₂ : Ranges (Extended (0 : ℚ))}
    (hr : ∀ v ∈ e.variableOccurrences, ∃ x₁ x₂, r₁[v]? = some x₁ ∧ r₂[v]? = some x₂ ∧
      x₁.isFinite = true ∧ x₂.isFinite = true ∧ x₁.isSubset x₂ = true)
    (h₁ : (e.map finite).DivisorsExcludeZero r₁.environment)
    (h₂ : (e.map finite).DivisorsExcludeZero r₂.environment) :
    ∃ p, Program.compile (e.map finite) = .ok p ∧
      (e.ExponentsFit → ∃ y₁ y₂,
        p.evaluate r₁.environment = .ok y₁ ∧ p.evaluate r₂.environment = .ok y₂ ∧
        y₁.isFinite = true ∧ y₂.isFinite = true ∧ y₁.isSubset y₂ = true ∧
        ∀ ρ : String → ℚ, (∀ v ∈ e.variableOccurrences, r₁[v]? = some (.point (.finite (ρ v)))) →
          ∃ c : ℚ, y₁ = .point (.finite c) ∧ e.value (fun v => (ρ v : ℝ)) = c) ∧
      (¬ e.ExponentsFit → ∀ y,
        p.evaluate r₁.environment ≠ .ok y ∧ p.evaluate r₂.environment ≠ .ok y) := by
  have henv : ∀ v ∈ e.variableOccurrences, ∃ x y,
      r₁.environment v = some x ∧ r₂.environment v = some y ∧ Included x y := by
    intro v hv
    obtain ⟨x₁, x₂, hx₁, hx₂, h⟩ := hr v hv
    exact ⟨x₁, x₂, hx₁, hx₂, Included.iff.2 h⟩
  obtain ⟨p, hp⟩ := he.exists_compile (finite : ℚ → Extended (0 : ℚ))
  have heval₁ : p.evaluate r₁.environment = (e.map finite).interval r₁.environment := by
    refine Program.evaluate_eq hp fun v hv => ?_
    obtain ⟨x, y, hx, -, -⟩ := henv v (variableOccurrences_map finite e ▸ hv)
    rw [hx, Option.isSome_some]
  have heval₂ : p.evaluate r₂.environment = (e.map finite).interval r₂.environment := by
    refine Program.evaluate_eq hp fun v hv => ?_
    obtain ⟨x, y, -, hy, -⟩ := henv v (variableOccurrences_map finite e ▸ hv)
    rw [hy, Option.isSome_some]
  refine ⟨p, hp, ?_⟩
  rw [heval₁, heval₂]
  refine ⟨fun hfit => ?_, fun hfit y => ⟨fun h => ?_, fun h => ?_⟩⟩
  -- whether the exponents fit does not depend on the ranges
  · obtain ⟨y₁, y₂, hy₁, hy₂, h⟩ := he.interval_included ⟨⟨hfit, h₁⟩, ⟨hfit, h₂⟩, henv⟩
    obtain ⟨hf₁, hf₂, hsub⟩ := Included.iff.1 h
    refine ⟨y₁, y₂, hy₁, hy₂, hf₁, hf₂, hsub, fun ρ hρ => ?_⟩
    have hpoints : ∀ v ∈ e.variableOccurrences, r₁.environment v = some (exactPoint (ρ v)) :=
      fun v hv => point_eq_exactPoint (ρ v) ▸ hρ v hv
    obtain ⟨c, hc, hvalue⟩ := he.interval_exactPoint ⟨⟨hfit, h₁⟩, hpoints⟩
    exact ⟨c, (Except.ok.inj (hy₁.symm.trans hc)).trans (point_eq_exactPoint c).symm, hvalue⟩
  · exact hfit (exponentsFit_of_interval_eq_ok h)
  · exact hfit (exponentsFit_of_interval_eq_ok h)

end Expr

end

section
attribute [local instance] RealFunctions.zero

/-- The model `x / y - |x|`. -/
def quotientLessMagnitude : Expr ℚ :=
  .binary .sub (.binary .div (.ofVariable "x") (.ofVariable "y")) (.unary .abs (.ofVariable "x"))

/-- Over `[2, 1]` and `[3, 3]` its interval is included in that over `[1, 2]` and `[2, 4]`. -/
theorem evaluate_quotientLessMagnitude :
    ∃ p y₁ y₂, Program.compile (quotientLessMagnitude.map Extended.finite) = .ok p ∧
      p.evaluate (Ranges.environment
        (((∅ : Ranges (Extended (0 : ℚ))).insert "x" (extend ⟨2, 1⟩)).insert "y"
        (extend ⟨3, 3⟩))) = .ok y₁ ∧
      p.evaluate (Ranges.environment
        (((∅ : Ranges (Extended (0 : ℚ))).insert "x" (extend ⟨1, 2⟩)).insert "y"
        (extend ⟨2, 4⟩))) = .ok y₂ ∧ y₁.isSubset y₂ = true := by
  have hmodel : quotientLessMagnitude.IsRational :=
    .sub (by simp) (by
      simpa using ⟨.div (by simp) (by simpa using ⟨.var "x" 1, .var "y" 1⟩), .abs (.var "x" 1)⟩)
  have hnames : quotientLessMagnitude.variableOccurrences = ["x", "y", "x"] := by decide +kernel
  have hfit : quotientLessMagnitude.ExponentsFit := by
    intro a n h
    rw [quotientLessMagnitude] at h
    simp [Expr.binary, Expr.unary, Expr.ofVariable, Expr.weighted, Expr.preorder_node] at h
  let r (x y : ModalInterval ℚ) : Ranges (Extended (0 : ℚ)) :=
    ((∅ : Ranges _).insert "x" x.extend).insert "y" y.extend
  have hx (x y : ModalInterval ℚ) : (r x y)["x"]? = some x.extend := by
    rw [Std.ExtTreeMap.getElem?_insert, if_neg (by decide), Std.ExtTreeMap.getElem?_insert_self]
  have hy (x y : ModalInterval ℚ) : (r x y)["y"]? = some y.extend :=
    Std.ExtTreeMap.getElem?_insert_self
  have hdiv (x y : ModalInterval ℚ) (h0 : (y * ⟨1, 1⟩).contains 0 = false) :
      (quotientLessMagnitude.map finite).DivisorsExcludeZero (r x y).environment := by
    intro args hargs d hd z hz
    simp [quotientLessMagnitude, Expr.binary, Expr.unary, Expr.ofVariable, Expr.weighted,
      Expr.preorder_node, Symbol.map] at hargs
    obtain rfl : d = Expr.weighted "y" (finite 1) := by
      simpa [hargs, Expr.divisors, Expr.weighted] using hd
    rw [Expr.weighted, Expr.interval_node rfl] at hz
    simp only [Symbol.interval, Ranges.environment, hy, Except.ok.injEq] at hz
    rw [← hz, point_finite, ← extend_mul, zero_eq, contains_extend, h0]
  have hr : ∀ v ∈ quotientLessMagnitude.variableOccurrences, ∃ x₁ x₂,
      (r ⟨2, 1⟩ ⟨3, 3⟩)[v]? = some x₁ ∧
      (r ⟨1, 2⟩ ⟨2, 4⟩)[v]? = some x₂ ∧ x₁.isFinite = true ∧ x₂.isFinite = true ∧
      x₁.isSubset x₂ = true := by
    intro v hv
    rw [hnames] at hv
    rcases (by simpa using hv : v = "x" ∨ v = "y" ∨ v = "x") with rfl | rfl | rfl
    · exact ⟨_, _, hx _ _, hx _ _, rfl, rfl, by decide +kernel⟩
    · exact ⟨_, _, hy _ _, hy _ _, rfl, rfl, by decide +kernel⟩
    · exact ⟨_, _, hx _ _, hx _ _, rfl, rfl, by decide +kernel⟩
  obtain ⟨p, hp, hok, -⟩ :=
    Expr.evaluate_isSubset_evaluate hmodel hr (hdiv ⟨2, 1⟩ ⟨3, 3⟩ (by decide +kernel))
    (hdiv ⟨1, 2⟩ ⟨2, 4⟩ (by decide +kernel))
  obtain ⟨y₁, y₂, hy₁, hy₂, -, -, hsub, -⟩ := hok hfit
  exact ⟨p, y₁, y₂, hp, hy₁, hy₂, hsub⟩

end

end ModalBounds
