import Mathlib
import ModalBounds.Proofs.Evaluation.Recursion
import ModalBounds.Proofs.Expr.ChainRule

/-!
# What folding constructors keep

A property that constants have and that goes through sums, differences and products (`KeptByRing`)
also goes through the constructors that fold constants in these. `e.Everywhere P` says that every
node of `e` has the property `P`. All folding constructors and the rules for derivatives keep what
holds of each operation that takes its operands (`HoldsOfOperations`), and of the power that the
power rule leaves (`Everywhere.derivativeRule`): a product of one factor or a sum of no terms never
comes out of them.
-/

namespace ModalBounds

/-- A symbol has an operation that takes so many operands. -/
def Symbol.Takes {α : Type} (s : Symbol α) (count : ℕ) : Prop :=
  ∃ op, Opcode.ofSymbol? s = some op ∧ op.accepts count = true

namespace Expr

/-! ### Sums, differences and products -/

/-- A property that constants have and that goes through sums, differences and products of some
operands; what is negated has it where the negation has it. -/
structure KeptByRing {α : Type} (Q : Expr α → Prop) : Prop where
  const : ∀ c, Q (constant c)
  add : ∀ {args}, args ≠ [] → (∀ a ∈ args, Q a) → Q (node .add args)
  sub : ∀ {args}, args ≠ [] → (∀ a ∈ args, Q a) → Q (node .sub args)
  mul : ∀ {args}, args ≠ [] → (∀ a ∈ args, Q a) → Q (node .mul args)
  negated : ∀ {a}, Q (unary .sub a) → Q a

namespace KeptByRing

variable {α : Type} {Q : Expr α → Prop} {args ds : List (Expr α)} {a b d : Expr α}
  (hQ : KeptByRing Q)

include hQ

theorem plainProduct (hne : args ≠ []) (h : ∀ a ∈ args, Q a) : Q (Expr.plainProduct args) := by
  unfold Expr.plainProduct
  split
  · exact h _ (by simp)
  · exact hQ.mul hne h

variable [Scalar α]

theorem foldSum (h : ∀ a ∈ args, Q a) : Q (Expr.foldSum args) := by
  have hrest : ∀ a ∈ nonConstants args ++
      (if (constants args).foldl (· + ·) 0 != 0
        then [constant ((constants args).foldl (· + ·) 0)] else []),
      Q a := by
    intro a ha
    rcases List.mem_append.1 ha with ha | ha
    · exact h a (List.mem_of_mem_filter ha)
    · split at ha
      · rw [List.mem_singleton.1 ha]; exact hQ.const _
      · cases ha
  rw [Expr.foldSum]
  generalize nonConstants args ++ _ = rest at hrest
  rcases rest with _ | ⟨a, _ | ⟨b, rest⟩⟩
  · exact hQ.const 0
  · exact hrest a (by simp)
  · exact hQ.add (by simp) hrest

theorem foldNeg (h : Q a) : Q (Expr.foldNeg a) := by
  unfold Expr.foldNeg
  split
  · exact hQ.const _
  · split
    · exact hQ.negated h
    · exact hQ.sub (by simp) (by simpa using h)

theorem foldDifference (ha : Q a) (hb : Q b) : Q (Expr.foldDifference a b) := by
  have hplain : Q (binary .sub a b) := hQ.sub (by simp) (by simp [ha, hb])
  unfold Expr.foldDifference
  split
  · exact hQ.const _
  · split
    · exact hQ.foldNeg hb
    · exact hplain
  · split
    · exact ha
    · exact hplain
  · exact hplain

theorem foldProduct (h : ∀ a ∈ args, Q a) : Q (Expr.foldProduct args) := by
  have hrest : ∀ a ∈ nonConstants args, Q a := fun a ha => h a (List.mem_of_mem_filter ha)
  unfold Expr.foldProduct
  dsimp only
  split_ifs with _ hempty
  · exact hQ.const _
  · exact hQ.const _
  · exact hQ.foldNeg (hQ.plainProduct (by simpa using hempty) hrest)
  · exact hQ.mul (by simp) (List.forall_mem_cons.2 ⟨hQ.const _, hrest⟩)
  · exact hQ.plainProduct (by simpa using hempty) hrest

theorem foldProduct_pair (ha : Q a) (hb : Q b) : Q (Expr.foldProduct [a, b]) :=
  hQ.foldProduct (by simpa using ⟨ha, hb⟩)

theorem productRule (h : ∀ a ∈ args, Q a) (hd : ∀ d ∈ ds, Q d) : Q (Expr.productRule args ds) :=
  hQ.foldSum (forall_mem_productTerms (fun _ => hQ.foldProduct) (by simp) h hd)

theorem powerRule {n : α} (hpower : (n == 0) = false → Q (binary .power a (constant (n - 1))))
    (ha : Q a) (hd : Q d) : Q (Expr.powerRule a d n) := by
  unfold Expr.powerRule
  split
  · exact hQ.const 0
  · rename_i hn
    refine hQ.foldProduct_pair ?_ hd
    split_ifs
    · exact hQ.const 1
    · exact hQ.foldProduct_pair (hQ.const _) ha
    · exact hQ.foldProduct_pair (hQ.const n) (hpower (by simpa using hn))

end KeptByRing

/-! ### Properties of all nodes -/

section
variable {α : Type}

/-- Every node of an expression has a property. -/
def Everywhere (P : Expr α → Prop) (e : Expr α) : Prop := ∀ a ∈ e.preorder, P a

/-- A property of all nodes whose symbol takes its operands, variables and powers apart. -/
def HoldsOfOperations (P : Expr α → Prop) : Prop :=
  ∀ (s : Symbol α) (args : List (Expr α)), s.Takes args.length → (node s []).variableName? = none →
    s ≠ .power → P (node s args)

variable {P : Expr α → Prop} {s : Symbol α} {args : List (Expr α)} {a b : Expr α}

theorem everywhere_node :
    (node s args).Everywhere P ↔ P (node s args) ∧ ∀ a ∈ args, a.Everywhere P := by
  simp only [Everywhere, preorder_node, List.forall_mem_cons, List.forall_mem_flatMap]

namespace Everywhere

theorem operand (h : (node s args).Everywhere P) (ha : a ∈ args) : a.Everywhere P :=
  (everywhere_node.1 h).2 a ha

theorem forall_pair (ha : a.Everywhere P) (hb : b.Everywhere P) : ∀ e ∈ [a, b], e.Everywhere P := by
  simpa using ⟨ha, hb⟩

/-! ### Nodes -/

theorem power (hself : P (Expr.binary .power a b)) (ha : a.Everywhere P) (hb : b.Everywhere P) :
    (Expr.binary .power a b).Everywhere P :=
  everywhere_node.2 ⟨hself, forall_pair ha hb⟩

variable (hP : HoldsOfOperations P)
include hP

theorem of_takes (hs : s.Takes args.length) (hpow : s ≠ .power)
    (hvar : (node s []).variableName? = none)
    (h : ∀ a ∈ args, a.Everywhere P) : (node s args).Everywhere P :=
  everywhere_node.2 ⟨hP s args hs hvar hpow, h⟩

theorem const (c : α) :
    (constant c).Everywhere P := of_takes hP ⟨_, rfl, rfl⟩ (by simp) rfl (by simp)

theorem unary (hs : s.Takes 1) (hpow : s ≠ .power) (hvar : (node s []).variableName? = none)
    (ha : a.Everywhere P) : (Expr.unary s a).Everywhere P :=
  of_takes hP hs hpow hvar (by simpa using ha)

theorem binary (hs : s.Takes 2) (hpow : s ≠ .power) (hvar : (node s []).variableName? = none)
    (ha : a.Everywhere P) (hb : b.Everywhere P) : (Expr.binary s a b).Everywhere P :=
  of_takes hP hs hpow hvar (forall_pair ha hb)

theorem neg (ha : a.Everywhere P) : (Expr.unary .sub a).Everywhere P :=
  unary hP ⟨_, rfl, rfl⟩ (by simp) rfl ha

theorem div (ha : a.Everywhere P) (hb : b.Everywhere P) : (Expr.binary .div a b).Everywhere P :=
  binary hP ⟨_, rfl, rfl⟩ (by simp) rfl ha hb

end Everywhere

theorem HoldsOfOperations.ring (hP : HoldsOfOperations P) : KeptByRing (Everywhere P) where
  const := Everywhere.const hP
  add hne h := .of_takes hP ⟨_, rfl, decide_eq_true (List.length_pos_iff.2 hne)⟩ (by simp) rfl h
  sub hne h := .of_takes hP ⟨_, rfl, decide_eq_true (List.length_pos_iff.2 hne)⟩ (by simp) rfl h
  mul hne h := .of_takes hP ⟨_, rfl, decide_eq_true (List.length_pos_iff.2 hne)⟩ (by simp) rfl h
  negated h := h.operand (by simp)

end

namespace Everywhere

variable {α : Type} [Scalar α] {P : Expr α → Prop} {args ds : List (Expr α)}
  {a b c d : Expr α} {x : String}
variable (hP : HoldsOfOperations P)
include hP

/-! ### The other folding constructors -/

theorem foldQuotient (ha : a.Everywhere P) (hb : b.Everywhere P) :
    (Expr.foldQuotient a b).Everywhere P := by
  unfold Expr.foldQuotient
  split
  · exact const hP 0
  · split
    · exact ha
    · split
      · split
        · exact const hP _
        · exact div hP ha hb
      · exact div hP ha hb

theorem foldSquare (h : a.Everywhere P) : (Expr.foldSquare a).Everywhere P := by
  unfold Expr.foldSquare
  split
  · exact const hP _
  · exact unary hP ⟨_, rfl, rfl⟩ (by simp) rfl h

theorem foldAnalyticQuotient (ha : a.Everywhere P) (hb : b.Everywhere P) :
    (Expr.foldAnalyticQuotient a b).Everywhere P := by
  unfold Expr.foldAnalyticQuotient
  split
  · exact const hP 0
  · exact binary hP ⟨_, rfl, rfl⟩ (by simp) rfl ha hb

/-! ### Rules for derivatives -/

theorem quotientRule (ha : a.Everywhere P) (hb : b.Everywhere P) (hc : c.Everywhere P)
    (hd : d.Everywhere P) : (Expr.quotientRule a b c d).Everywhere P :=
  foldQuotient hP
    (hP.ring.foldDifference (hP.ring.foldProduct_pair hb hc) (hP.ring.foldProduct_pair ha hd))
    (foldSquare hP hc)

theorem unaryRule {s : Symbol α} (ha : a.Everywhere P) (hd : d.Everywhere P)
    (hs : s = .sin ∨ s = .cos ∨ s = .tan ∨ s = .tanh ∨ s = .exp ∨ s = .log ∨
      s = .square ∨ s = .sqrt ∨
      s = .abs) : (Expr.derivativeRule x s [a] [d]).Everywhere P := by
  have hunary {s : Symbol α}
      (hs : s = .sin ∨ s = .cos ∨ s = .tanh ∨ s = .exp ∨ s = .sqrt ∨ s = .abs) :
      (Expr.unary s a).Everywhere P := by
    rcases hs with rfl | rfl | rfl | rfl | rfl | rfl <;>
      exact unary hP ⟨_, rfl, rfl⟩ (by simp) rfl ha
  rcases hs with rfl | rfl | rfl | rfl | rfl | rfl | rfl | rfl | rfl
  · exact hP.ring.foldProduct_pair (hunary (by simp)) hd
  · exact hP.ring.foldNeg (hP.ring.foldProduct_pair (hunary (by simp)) hd)
  · exact foldQuotient hP hd (foldSquare hP (hunary (by simp)))
  · exact hP.ring.foldProduct_pair hd
      (hP.ring.foldDifference (const hP 1) (foldSquare hP (hunary (by simp))))
  · exact hP.ring.foldProduct_pair (hunary (by simp)) hd
  · exact foldQuotient hP hd ha
  · exact hP.ring.foldProduct (List.forall_mem_cons.2 ⟨const hP _, forall_pair ha hd⟩)
  · exact foldQuotient hP hd (hP.ring.foldProduct_pair (const hP _) (hunary (by simp)))
  · exact hP.ring.foldProduct_pair hd (foldQuotient hP ha (hunary (by simp)))

/-- The rule for each symbol keeps what holds of every node of the operands and of their
derivatives. -/
theorem derivativeRule (s : Symbol α) (hlen : ds.length = args.length)
    (hargs : ∀ a ∈ args, a.Everywhere P) (hds : ∀ d ∈ ds, d.Everywhere P)
    (hpow : ∀ f n c, s = .power → args = [f, n] → n.constantValue? = some c →
      P (Expr.binary .power f (constant (c - 1)))) :
    (Expr.derivativeRule x s args ds).Everywhere P := by
  cases s with
  | var | const => exact const hP _
  | add => exact hP.ring.foldSum hds
  | mul => exact hP.ring.productRule hargs hds
  | sub =>
    rcases ds with _ | ⟨d, _ | ⟨d', ds⟩⟩
    · exact const hP 0
    · exact hP.ring.foldNeg (hds d (by simp))
    · rw [List.forall_mem_cons] at hds
      exact hP.ring.foldDifference hds.1 (hP.ring.foldSum hds.2)
  | div =>
    rcases args with _ | ⟨a, _ | ⟨b, _ | ⟨c, args⟩⟩⟩
    · exact const hP 0
    · obtain ⟨d, rfl⟩ := List.length_eq_one_iff.1 hlen
      exact hP.ring.foldNeg (foldQuotient hP (hds d (by simp)) (foldSquare hP (hargs a (by simp))))
    · obtain ⟨d, d', rfl⟩ := List.length_eq_two.1 hlen
      exact quotientRule hP (hargs a (by simp)) (hds d (by simp)) (hargs b (by simp))
        (hds d' (by simp))
    · rcases ds with _ | ⟨d, _ | ⟨d', _ | ⟨d'', ds⟩⟩⟩
      · cases hlen
      · cases hlen
      · cases hlen
      · rw [List.forall_mem_cons] at hargs hds
        rw [Expr.derivativeRule]
        -- several divisors are differentiated as their product
        refine quotientRule hP hargs.1 hds.1 (hP.ring.mul (by simp) hargs.2) ?_
        split
        · exact hP.ring.productRule hargs.2 hds.2
        · exact const hP 0
        all_goals simp
  | power =>
    rcases args with _ | ⟨f, _ | ⟨n, _ | ⟨c, args⟩⟩⟩
    · exact const hP 0
    · exact const hP 0
    · obtain ⟨d, d', rfl⟩ := List.length_eq_two.1 hlen
      rw [Expr.derivativeRule]
      cases hn : n.constantValue? with
      | none => exact const hP 0
      | some c =>
        have hf := hargs f (by simp)
        -- the power with its exponent lowered is the one node that the operands do not warrant
        exact hP.ring.powerRule (fun _ => power (hpow f n c rfl rfl hn) hf (const hP _)) hf
          (hds d (by simp))
    · exact const hP 0
  | analyticQuotient =>
    rcases args with _ | ⟨a, _ | ⟨b, _ | ⟨c, args⟩⟩⟩
    · exact const hP 0
    · exact const hP 0
    · obtain ⟨d, d', rfl⟩ := List.length_eq_two.1 hlen
      have ha := hargs a (by simp)
      have hb := hargs b (by simp)
      have hcross : (Expr.foldProduct [a, b, d']).Everywhere P :=
        hP.ring.foldProduct (List.forall_mem_cons.2 ⟨ha, forall_pair hb (hds d' (by simp))⟩)
      exact hP.ring.foldDifference (foldAnalyticQuotient hP (hds d (by simp)) hb) (foldQuotient hP
        (foldAnalyticQuotient hP hcross hb)
          (hP.ring.foldSum (forall_pair (const hP 1) (foldSquare hP hb))))
    · exact const hP 0
  | subFunction name =>
    rcases ds with _ | ⟨d, _ | ⟨d', ds⟩⟩
    · exact const hP 0
    · exact hds d (by simp)
    · exact const hP 0
  | sin | cos | tan | tanh | log | exp | square | sqrt | abs =>
    rcases args with _ | ⟨a, _ | ⟨b, args⟩⟩
    · exact const hP 0
    · obtain ⟨d, rfl⟩ := List.length_eq_one_iff.1 hlen
      exact unaryRule hP (hargs a (by simp)) (hds d (by simp)) (by simp)
    · exact const hP 0
  | cube | cbrt | root | logistic | erf | min | max => exact const hP 0

end Everywhere

end Expr

end ModalBounds
