import Mathlib
import ModalBounds.Proofs.Evaluation.Inclusion

/-!
# What collapsed bounds take away

With tolerances every operation settles its bounds, and what that takes from an interval is lost to
the enclosure; operations above magnify it. `Expr.loose` computes an interval as the evaluator does,
together with a slack: what settling took from it, and what the operands were short of. Widened by
its slack the interval of a polynomial model has every value over the ranges
(`evaluate_encloses_within_slack`), and without slack it may have none of them.
-/

namespace ModalBounds

open Set ModalInterval Extended

/-- An interval, and how far beyond its bounds the values may lie that it stands for. -/
structure Loose where
  interval : ModalInterval ℚ
  slack : ℚ

namespace Loose

/-- The greatest absolute value between the bounds. -/
def magnitude (a : Loose) : ℚ := max |a.interval.lower| |a.interval.upper|

/-- Settling an interval adds to the slack what it takes from the width. -/
def settle (ε : ℚ) (x : ModalInterval ℚ) (slack : ℚ) : Loose :=
  ⟨x.settle ε, slack + (x.width - (x.settle ε).width)⟩

def point (c : ℚ) : Loose := ⟨⟨c, c⟩, 0⟩

def neg (ε : ℚ) (a : Loose) : Loose := settle ε (-a.interval) a.slack

def add (ε : ℚ) (a b : Loose) : Loose := settle ε (a.interval + b.interval) (a.slack + b.slack)

def sub (ε : ℚ) (a b : Loose) : Loose := settle ε (a.interval - b.interval) (a.slack + b.slack)

def mul (ε : ℚ) (a b : Loose) : Loose :=
  settle ε (a.interval * b.interval)
    (a.magnitude * b.slack + a.slack * b.magnitude + a.slack * b.slack)

def npow (ε : ℚ) (n : ℕ) (a : Loose) : Loose :=
  settle ε (a.interval.npow n) ((a.magnitude + a.slack) ^ n - a.magnitude ^ n)

/-- The value lies between the bounds, up to the slack. -/
def Covers (a : Loose) (t : ℝ) : Prop :=
  ∃ t₀ : ℝ, t₀ ∈ Icc (a.interval.lower : ℝ) a.interval.upper ∧ |t - t₀| ≤ a.slack

/-! ### One operation -/

variable {ε : ℚ} {a b : Loose} {t u : ℝ}

theorem Covers.mem_Icc (h : a.Covers t) :
    t ∈ Icc ((a.interval.lower - a.slack : ℚ) : ℝ) ((a.interval.upper + a.slack : ℚ) : ℝ) := by
  obtain ⟨t₀, ⟨hl, hu⟩, hd⟩ := h
  rw [abs_le] at hd
  rw [Rat.cast_sub, Rat.cast_add]
  constructor <;> linarith [hd.1, hd.2]

theorem Covers.proper (h : a.Covers t) : a.interval.lower ≤ a.interval.upper := by
  obtain ⟨t₀, ⟨hl, hu⟩, -⟩ := h
  exact_mod_cast hl.trans hu

theorem Covers.point (c : ℚ) : (point c).Covers c := ⟨c, ⟨le_rfl, le_rfl⟩, by simp [Loose.point]⟩

/-- Settling moves a value by no more than it takes from the width. -/
theorem Covers.settle {x : ModalInterval ℚ} {s : ℚ} (t₀ : ℝ) (h₀ : t₀ ∈ Icc (x.lower : ℝ) x.upper)
    (h : |t - t₀| ≤ s) : (Loose.settle ε x s).Covers t := by
  have hle : x.lower ≤ x.upper := by exact_mod_cast h₀.1.trans h₀.2
  rcases x.settle_cases ε with hx | ⟨c, hx, hc⟩
  · refine ⟨t₀, ?_, ?_⟩
    · rw [Loose.settle, hx]
      exact h₀
    · rwa [Loose.settle, hx, sub_self, add_zero]
  · obtain ⟨hcl, hcu⟩ := hc hle
    refine ⟨c, ?_, ?_⟩
    · rw [Loose.settle, hx]
      exact ⟨le_rfl, le_rfl⟩
    · have hcl' : (x.lower : ℝ) ≤ c := by exact_mod_cast hcl
      have hcu' : (c : ℝ) ≤ x.upper := by exact_mod_cast hcu
      have hd : |t₀ - c| ≤ x.upper - x.lower := by
        rw [abs_le]
        constructor <;> linarith [h₀.1, h₀.2]
      rw [Loose.settle, hx, width, width, sub_self, sub_zero, Rat.cast_add, Rat.cast_sub]
      calc |t - c| ≤ |t - t₀| + |t₀ - c| := abs_sub_le t t₀ c
        _ ≤ s + (x.upper - x.lower) := add_le_add h hd

theorem abs_le_magnitude {t₀ : ℝ} (h : t₀ ∈ Icc (a.interval.lower : ℝ) a.interval.upper) :
    |t₀| ≤ a.magnitude := by
  rw [magnitude, Rat.cast_max, Rat.cast_abs, Rat.cast_abs]
  exact abs_le_max_abs_abs h.1 h.2

theorem Covers.neg (h : a.Covers t) : (a.neg ε).Covers (-t) := by
  obtain ⟨t₀, h₀, hd⟩ := h
  refine Covers.settle (-t₀) ?_ ?_
  · rw [neg_eq, Rat.cast_neg, Rat.cast_neg]
    exact ⟨neg_le_neg h₀.2, neg_le_neg h₀.1⟩
  · rwa [neg_sub_neg, abs_sub_comm]

theorem Covers.add (ha : a.Covers t) (hb : b.Covers u) : (a.add ε b).Covers (t + u) := by
  obtain ⟨t₀, h₀, hd⟩ := ha
  obtain ⟨u₀, h₀', hd'⟩ := hb
  refine Covers.settle (t₀ + u₀) ?_ ?_
  · rw [add_eq, Rat.cast_add, Rat.cast_add]
    exact ⟨add_le_add h₀.1 h₀'.1, add_le_add h₀.2 h₀'.2⟩
  · rw [add_sub_add_comm, Rat.cast_add]
    exact (abs_add_le _ _).trans (add_le_add hd hd')

theorem Covers.sub (ha : a.Covers t) (hb : b.Covers u) : (a.sub ε b).Covers (t - u) := by
  obtain ⟨t₀, h₀, hd⟩ := ha
  obtain ⟨u₀, h₀', hd'⟩ := hb
  refine Covers.settle (t₀ - u₀) ?_ ?_
  · rw [sub_eq, Rat.cast_sub, Rat.cast_sub]
    exact ⟨sub_le_sub h₀.1 h₀'.2, sub_le_sub h₀.2 h₀'.1⟩
  · rw [sub_sub_sub_comm, Rat.cast_add]
    exact (abs_sub _ _).trans (add_le_add hd hd')

theorem abs_mul_sub_mul_le {t₀ u₀ m n r s : ℝ} (ht : |t₀| ≤ m) (hu : |u₀| ≤ n) (hd : |t - t₀| ≤ r)
    (hd' : |u - u₀| ≤ s) : |t * u - t₀ * u₀| ≤ m * s + r * n + r * s := by
  have h₁ : |t₀| * |u - u₀| ≤ m * s := mul_le_mul ht hd' (abs_nonneg _) ((abs_nonneg _).trans ht)
  have h₂ : |t - t₀| * |u₀| ≤ r * n := mul_le_mul hd hu (abs_nonneg _) ((abs_nonneg _).trans hd)
  have h₃ : |t - t₀| * |u - u₀| ≤ r * s :=
    mul_le_mul hd hd' (abs_nonneg _) ((abs_nonneg _).trans hd)
  calc |t * u - t₀ * u₀| = |t₀ * (u - u₀) + (t - t₀) * u₀ + (t - t₀) * (u - u₀)| := by ring_nf
    _ ≤ |t₀ * (u - u₀)| + |(t - t₀) * u₀| + |(t - t₀) * (u - u₀)| := abs_add_three _ _ _
    _ ≤ m * s + r * n + r * s := by
      rw [abs_mul, abs_mul, abs_mul]
      exact add_le_add (add_le_add h₁ h₂) h₃

theorem abs_pow_sub_pow_le {t₀ m s : ℝ} (ht : |t₀| ≤ m) (hd : |t - t₀| ≤ s) (n : ℕ) :
    |t ^ n - t₀ ^ n| ≤ (m + s) ^ n - m ^ n := by
  induction n with
  | zero => simp
  | succ n ih =>
    have hpow : |t₀ ^ n| ≤ m ^ n := by
      rw [abs_pow]
      exact pow_le_pow_left₀ (abs_nonneg _) ht n
    rw [pow_succ, pow_succ]
    calc |t ^ n * t - t₀ ^ n * t₀| ≤
      m ^ n * s + ((m + s) ^ n - m ^ n) * m + ((m + s) ^ n - m ^ n) * s :=
          abs_mul_sub_mul_le hpow ht ih hd
      _ = (m + s) ^ (n + 1) - m ^ (n + 1) := by ring

theorem Covers.mul (ha : a.Covers t) (hb : b.Covers u) : (a.mul ε b).Covers (t * u) := by
  obtain ⟨t₀, h₀, hd⟩ := ha
  obtain ⟨u₀, h₀', hd'⟩ := hb
  refine Covers.settle (t₀ * u₀) ?_ ?_
  · have hsub : (⟨t₀, t₀⟩ * ⟨u₀, u₀⟩ : ModalInterval ℝ) ⊆ a.interval.toReal * b.interval.toReal :=
      mul_subset_mul h₀ h₀'
    rwa [mul_point, ← toReal_mul] at hsub
  · rw [Rat.cast_add, Rat.cast_add, Rat.cast_mul, Rat.cast_mul, Rat.cast_mul]
    exact abs_mul_sub_mul_le (abs_le_magnitude h₀) (abs_le_magnitude h₀') hd hd'

theorem Covers.npow (h : a.Covers t) (n : ℕ) : (a.npow ε n).Covers (t ^ n) := by
  obtain ⟨t₀, h₀, hd⟩ := h
  refine Covers.settle (t₀ ^ n) ?_ ?_
  · have hsub : (⟨t₀, t₀⟩ : ModalInterval ℝ).npow n ⊆ a.interval.toReal.npow n :=
      npow_subset_npow h₀ n
    rwa [npow_point, ← toReal_npow] at hsub
  · rw [Rat.cast_sub, Rat.cast_pow, Rat.cast_pow, Rat.cast_add]
    exact abs_pow_sub_pow_le (abs_le_magnitude h₀) hd n

end Loose

/-! ### Whole models -/

/-- The interval of a node with its slack, from those of its operands, where `given` are the ranges
before they are settled. -/
def Symbol.loose (ε : ℚ) (given : String → ModalInterval ℚ) (s : Symbol ℚ)
    (xs : List Loose) : Loose :=
  match s, xs with
  | .var name weight, _ => (Loose.settle ε (given name) 0).mul ε (.point weight)
  | .const c, _ => .point c
  | .add, x :: xs => xs.foldl (Loose.add ε) x
  | .sub, [x] => x.neg ε
  | .sub, x :: xs => xs.foldl (Loose.sub ε) x
  | .mul, x :: xs => xs.foldl (Loose.mul ε) x
  | .square, [x] => x.npow ε 2
  | .power, [x, n] => x.npow ε ⌊n.interval.lower⌋₊
  | _, _ => .point 0

namespace Loose

variable {ε : ℚ}

def evaluated (a : Loose) : ModalInterval (Extended ε) := a.interval.extend

theorem evaluated_neg (a : Loose) :
    ((a.neg ε).evaluated : ModalInterval (Extended ε)) = -a.evaluated :=
  (neg_extend _).symm

theorem evaluated_add (a b : Loose) :
    ((a.add ε b).evaluated : ModalInterval (Extended ε)) = a.evaluated + b.evaluated :=
  (add_extend _ _).symm

theorem evaluated_sub (a b : Loose) :
    ((a.sub ε b).evaluated : ModalInterval (Extended ε)) = a.evaluated - b.evaluated :=
  (sub_extend _ _).symm

theorem evaluated_mul (a b : Loose) :
    ((a.mul ε b).evaluated : ModalInterval (Extended ε)) = a.evaluated * b.evaluated :=
  (mul_extend _ _).symm

theorem Covers.evaluated_npow {a : Loose} {t : ℝ} (h : a.Covers t) (n : ℕ) :
    ((a.npow ε n).evaluated : ModalInterval (Extended ε)) = a.evaluated.npow n :=
  (npow_extend (.inl h.proper) n).symm

theorem Covers.foldl {op : Loose → Loose → Loose} {f : ℝ → ℝ → ℝ}
    (hop : ∀ {a b t u}, Covers a t → Covers b u → (op a b).Covers (f t u))
    {xs : List Loose} {ts : List ℝ}
    (hall : List.Forall₂ Covers xs ts) {a : Loose} {t : ℝ} (h : a.Covers t) :
    (xs.foldl op a).Covers (ts.foldl f t) := by
  induction hall generalizing a t with
  | nil => exact h
  | cons hx hall ih => exact ih (hop h hx)

end Loose

section
variable [RealFunctions ℚ]

/-- Over operands, so many of them, a symbol has the interval of its loose one, which covers its
value. -/
def Symbol.HasLoose (ε : ℚ) (s : Symbol ℚ) (count : ℕ) : Prop :=
  ∀ (given : String → ModalInterval ℚ) (env : Environment (Extended ε)) (τ : String → ℝ)
    (xs : List Loose)
    (ts : List ℝ), List.Forall₂ Loose.Covers xs ts → xs.length = count →
    (s.map finite).interval env (xs.map Loose.evaluated) = .ok (s.loose ε given xs).evaluated ∧
      (s.loose ε given xs).Covers (s.value τ ts)

namespace Symbol.HasLoose

variable {ε : ℚ} {count : ℕ}

theorem add (hcount : count ≠ 0) : HasLoose ε .add count := by
  rintro given env τ xs ts (_ | ⟨h, hall⟩) hlen
  · exact absurd hlen.symm hcount
  · refine ⟨?_, ?_⟩
    · exact congrArg _ (foldl_view Loose.evaluated (Loose.add ε) _ Loose.evaluated_add _ _).symm
    · rw [Symbol.value, List.sum_eq_foldl, List.foldl_cons, zero_add]
      exact .foldl Loose.Covers.add hall h

theorem mul (hcount : count ≠ 0) : HasLoose ε .mul count := by
  rintro given env τ xs ts (_ | ⟨h, hall⟩) hlen
  · exact absurd hlen.symm hcount
  · refine ⟨?_, ?_⟩
    · exact congrArg _ (foldl_view Loose.evaluated (Loose.mul ε) _ Loose.evaluated_mul _ _).symm
    · rw [Symbol.value, List.prod_eq_foldl, List.foldl_cons, one_mul]
      exact .foldl Loose.Covers.mul hall h

theorem sub (hcount : count ≠ 0) : HasLoose ε .sub count := by
  rintro given env τ xs ts (_ | ⟨h, _ | ⟨h', hall⟩⟩) hlen
  · exact absurd hlen.symm hcount
  · exact ⟨congrArg _ (Loose.evaluated_neg _).symm, h.neg⟩
  · refine ⟨?_, ?_⟩
    · exact congrArg _ (foldl_view Loose.evaluated (Loose.sub ε) _ Loose.evaluated_sub _ _).symm
    · exact .foldl Loose.Covers.sub (.cons h' hall) h

theorem square : HasLoose ε .square 1 := by
  rintro given env τ xs ts (_ | ⟨h, _ | _⟩) hlen
  · cases hlen
  · exact ⟨congrArg _ (h.evaluated_npow 2).symm, h.npow 2⟩
  · cases hlen

end Symbol.HasLoose

end

namespace Expr

mutual

/-- The interval of a polynomial model with its slack; of no meaning for other expressions. -/
def loose (ε : ℚ) (given : String → ModalInterval ℚ) : Expr ℚ → Loose
  | node s args => s.loose ε given (looseAll ε given args)

def looseAll (ε : ℚ) (given : String → ModalInterval ℚ) : List (Expr ℚ) → List Loose
  | [] => []
  | a :: rest => loose ε given a :: looseAll ε given rest

end

variable (ε : ℚ) (given : String → ModalInterval ℚ)

theorem looseAll_eq (args : List (Expr ℚ)) : looseAll ε given args = args.map (loose ε given) := by
  induction args with
  | nil => rfl
  | cons a rest ih => rw [looseAll, ih, List.map_cons]

theorem loose_node (s : Symbol ℚ) (args : List (Expr ℚ)) :
    (node s args).loose ε given = s.loose ε given (args.map (loose ε given)) := by
  rw [loose, looseAll_eq]

section
variable [RealFunctions ℚ]
variable {ε given}

/-- Over the ranges an expression evaluates to its loose interval, which covers the value. -/
def IsLoose (given : String → ModalInterval ℚ) (env : Environment (Extended ε)) (τ : String → ℝ)
    (e : Expr ℚ) : Prop :=
  (e.map finite).interval env = .ok (e.loose ε given).evaluated ∧
    (e.loose ε given).Covers (e.value τ)

theorem IsLoose.node {env : Environment (Extended ε)} {τ : String → ℝ} {s : Symbol ℚ}
    {args : List (Expr ℚ)}
    (hs : s.HasLoose ε args.length) (h : ∀ a ∈ args, a.IsLoose given env τ) :
    (node s args).IsLoose given env τ := by
  have hargs : intervals env (args.map (map finite)) =
      .ok ((args.map (loose ε given)).map Loose.evaluated) ∧
      List.Forall₂ Loose.Covers (args.map (loose ε given)) (args.map (value τ)) := by
    simp only [intervals_eq_ok, List.forall₂_map_left_iff, List.forall₂_map_right_iff,
      List.forall₂_same]
    exact ⟨fun a ha => (h a ha).1, fun a ha => (h a ha).2⟩
  rw [IsLoose, map_node, interval_node hargs.1, loose_node, value_node]
  exact hs given env τ _ _ hargs.2 (List.length_map _)

/-- Over ranges that were settled a polynomial model evaluates to its loose interval, which covers
the values over the ranges as they were given. -/
theorem IsPolynomial.interval_loose {V : Set String} {e : Expr ℚ} (he : e.IsPolynomial V)
    {env : Environment (Extended ε)} {τ : String → ℝ} (henv : ∀ v ∈ V,
      env v = some ((given v).settle ε).extend ∧ τ v ∈ Icc ((given v).lower : ℝ) (given v).upper) :
    e.IsLoose given env τ := by
  induction he with
  | @var name weight h =>
    obtain ⟨hx, hτ⟩ := henv name h
    have hvar : (Loose.settle ε (given name) 0).Covers (τ name) := .settle (τ name) hτ (by simp)
    rw [IsLoose, weighted, map_node, interval_node rfl, loose_node, value_node]
    refine ⟨?_, ?_⟩
    · simp only [Symbol.map, Symbol.interval, hx, point_finite]
      exact congrArg _ (mul_extend _ _)
    · rw [Symbol.value, mul_comm]
      exact hvar.mul (.point weight)
  | const c => exact ⟨congrArg _ (point_finite c), by rw [value_constant]; exact .point c⟩
  | add hne h ih => exact .node (.add (by simpa using hne)) ih
  | mul hne h ih => exact .node (.mul (by simpa using hne)) ih
  | sub hne h ih => exact .node (.sub (by simpa using hne)) ih
  | square h ih => exact .node .square (by simpa using ih)
  | @power a n hn h ih =>
    have hloose : (binary .power a (constant (n : ℚ))).loose ε given =
        (a.loose ε given).npow ε n := by
      rw [binary, loose_node]
      show Loose.npow ε ⌊(n : ℚ)⌋₊ _ = _
      rw [Nat.floor_natCast]
    have hvalue : (binary .power a (constant (n : ℚ))).value τ = a.value τ ^ n := by
      rw [binary, value_node, List.map_cons, List.map_singleton, value_constant,
        Symbol.value, map_natCast, Real.rpow_natCast]
    rw [IsLoose, hloose, hvalue, interval_power ih.1, if_pos hn]
    exact ⟨congrArg _ (ih.2.evaluated_npow n).symm, ih.2.npow n⟩

omit [RealFunctions ℚ] in
theorem toModal_of_finite {x : ModalInterval ℚ} (hx : x.lower ≤ x.upper) :
    ∃ r, Interval.of (finite x.lower : Extended ε) (finite x.upper) = .ok r ∧
      r.toModal = (x.settle ε).extend := by
  have hle : (x.settle ε).lower ≤ (x.settle ε).upper := by
    rcases x.settle_cases ε with h | ⟨c, h, -⟩
    · rwa [h]
    · rw [h]
  refine ⟨⟨finite (x.settle ε).lower, finite (x.settle ε).upper⟩, ?_, ?_⟩
  · rw [Interval.of, collapse_finite]
    exact if_neg hle.not_gt
  · rw [Interval.toModal, of_finite]
    exact congrArg extend (settle_settle ε x)

/-- The plain evaluation of a polynomial model over ranges in order succeeds, and widened by the
slack of the model its interval has every value over the ranges, whatever the tolerances are. -/
theorem evaluate_encloses_within_slack {V : Set String} {e : Expr ℚ} (he : e.IsPolynomial V)
    {plain : Collection (Extended ε)}
    (hc : ∀ v ∈ e.variableOccurrences, (given v).lower ≤ (given v).upper ∧
      plain[v]? = (Interval.of (finite (given v).lower) (finite (given v).upper)).toOption) :
    ∃ p y, Program.compile (e.map finite) = .ok p ∧
      p.evaluate plain.toRanges.environment = .ok (extend y) ∧
      ∀ τ : String → ℝ,
        (∀ v ∈ e.variableOccurrences, τ v ∈ Icc ((given v).lower : ℝ) (given v).upper) →
        e.value τ ∈ Icc ((y.lower - (e.loose ε given).slack : ℚ) : ℝ)
          ((y.upper + (e.loose ε given).slack : ℚ) : ℝ) := by
  have he : e.IsPolynomial {v | v ∈ e.variableOccurrences} := he.of_forall_mem fun _ hv => hv
  have henv : ∀ v ∈ e.variableOccurrences,
      plain.toRanges.environment v = some ((given v).settle ε).extend := by
    intro v hv
    obtain ⟨r, hr, hmodal⟩ := toModal_of_finite (ε := ε) (hc v hv).1
    rw [Collection.environment_toRanges, (hc v hv).2, hr]
    exact congrArg some hmodal
  -- the interval is the same for all points, and covers the value at each
  have hloose {τ : String → ℝ}
      (hτ : ∀ v ∈ e.variableOccurrences, τ v ∈ Icc ((given v).lower : ℝ) (given v).upper) :
      (e.map finite).interval plain.toRanges.environment = .ok (e.loose ε given).evaluated ∧
        (e.loose ε given).Covers (e.value τ) := he.interval_loose fun v hv => ⟨henv v hv, hτ v hv⟩
  obtain ⟨p, hp⟩ := he.isRational.exists_compile (finite : ℚ → Extended ε)
  refine ⟨p, (e.loose ε given).interval, hp, ?_, fun τ hτ => (hloose hτ).2.mem_Icc⟩
  rw [Program.evaluate_eq hp fun v hv => ?_]
  · exact (hloose fun v hv => ⟨le_rfl, Rat.cast_le.2 (hc v hv).1⟩).1
  · rw [henv v (variableOccurrences_map finite e ▸ hv), Option.isSome_some]

end

end Expr

section
attribute [local instance] RealFunctions.zero

/-- The model `10000000000000 * x`. -/
def scaledVariable : Expr ℚ := .binary .mul (.constant (10 ^ 13)) (.ofVariable "x")

/-- Zero takes the place of `[0, 1 / 10 ^ 13]`, and the factor leaves a slack of one. -/
theorem evaluate_scaledVariable :
    ∃ r p y, Interval.of (finite 0 : Extended (1 / 10 ^ 12 : ℚ)) (finite (1 / 10 ^ 13)) = .ok r ∧
      Program.compile (scaledVariable.map finite) = .ok p ∧
      p.evaluate (Ranges.environment (Collection.toRanges ((∅ : Collection _).insert "x" r))) =
        .ok (extend y) ∧
      ∀ t ∈ Icc (0 : ℝ) (1 / 10 ^ 13),
        10 ^ 13 * t ∈ Icc ((y.lower - 1 : ℚ) : ℝ) ((y.upper + 1 : ℚ) : ℝ) := by
  have hmodel : scaledVariable.IsPolynomial {"x"} :=
    .mul (by simp) (by simpa using ⟨.const (10 ^ 13), .var rfl⟩)
  have hnames : scaledVariable.variableOccurrences = ["x"] := by decide +kernel
  let given : String → ModalInterval ℚ := fun _ => ⟨0, 1 / 10 ^ 13⟩
  have hle : (0 : ℚ) ≤ 1 / 10 ^ 13 := by norm_num
  have hslack : (scaledVariable.loose (1 / 10 ^ 12) given).slack = 1 := by decide +kernel
  obtain ⟨r, hr, -⟩ := Expr.toModal_of_finite (ε := 1 / 10 ^ 12) (x := ⟨0, 1 / 10 ^ 13⟩) hle
  let plain : Collection (Extended (1 / 10 ^ 12 : ℚ)) := (∅ : Collection _).insert "x" r
  have hplain : ∀ v ∈ scaledVariable.variableOccurrences, (given v).lower ≤ (given v).upper ∧
      plain[v]? = (Interval.of (finite (given v).lower) (finite (given v).upper)).toOption := by
    intro v hv
    rw [hnames, List.mem_singleton] at hv
    rw [hv, hr]
    exact ⟨hle, Std.ExtTreeMap.getElem?_insert_self⟩
  obtain ⟨p, y, hp, hy, hmem⟩ := Expr.evaluate_encloses_within_slack hmodel hplain
  refine ⟨r, p, y, hr, hp, hy, fun t ht => ?_⟩
  have hvalue : scaledVariable.value (fun _ => t) = 10 ^ 13 * t := by
    simp [scaledVariable, Expr.value, Symbol.value, Expr.binary, Expr.ofVariable, Expr.weighted,
      Expr.constant]
  rw [← hvalue, ← hslack]
  refine hmem _ fun v _ => ?_
  show t ∈ Icc ((0 : ℚ) : ℝ) ((1 / 10 ^ 13 : ℚ) : ℝ)
  push_cast
  exact ht

/-- Its interval over `[0, 1 / 10 ^ 13]` is zero, but its value at the upper end is one. -/
theorem evaluate_scaledVariable_collapsed :
    ∃ r p y, Interval.of (finite 0 : Extended (1 / 10 ^ 12 : ℚ)) (finite (1 / 10 ^ 13)) = .ok r ∧
      Program.compile (scaledVariable.map finite) = .ok p ∧
      p.evaluate (Ranges.environment (Collection.toRanges ((∅ : Collection _).insert "x" r))) =
        .ok y ∧
      y.lower = finite 0 ∧ y.upper = finite 0 ∧
      scaledVariable.value (fun _ => 1 / 10 ^ 13) = 1 := by
  let run : Except (ModelError (Extended (1 / 10 ^ 12 : ℚ)))
      (ModalInterval (Extended (1 / 10 ^ 12 : ℚ))) := do
    let r ← Interval.of (finite 0) (finite (1 / 10 ^ 13))
    let p ← Program.compile (scaledVariable.map finite)
    p.evaluate (Ranges.environment (Collection.toRanges ((∅ : Collection _).insert "x" r)))
  have hrun : run.toOption.map (fun y => (y.lower, y.upper)) = some (finite 0, finite 0) := by
    decide +kernel
  obtain ⟨y, hy, hends⟩ := Option.map_eq_some_iff.1 hrun
  obtain ⟨r, hr, hy⟩ := bind_eq_ok.1 (toOption_eq_some.1 hy)
  obtain ⟨p, hp, hy⟩ := bind_eq_ok.1 hy
  rw [Prod.mk.injEq] at hends
  refine ⟨r, p, y, hr, hp, hy, hends.1, hends.2, ?_⟩
  simp [scaledVariable, Expr.value, Symbol.value, Expr.binary, Expr.ofVariable, Expr.weighted,
    Expr.constant]

end

end ModalBounds
