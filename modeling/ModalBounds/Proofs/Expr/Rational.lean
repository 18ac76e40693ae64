import Mathlib
import ModalBounds.Proofs.Expr.Occurrence

/-!
# Rational models

`IsRational e` says that `e` is built from weighted variables, constants, sums, differences,
products, quotients, squares, absolute values, wrappers and powers with a natural number as
exponent. `Expr.map` changes the numbers of an expression and nothing else: it commutes with taking
the nodes, with renaming and with relabeling.
-/

namespace ModalBounds

variable {α β : Type}

/-! ### Other numbers in an expression -/

def Symbol.map (f : α → β) : Symbol α → Symbol β
  | .var name weight => .var name (f weight)
  | .const value => .const (f value)
  | .add => .add
  | .sub => .sub
  | .mul => .mul
  | .div => .div
  | .sin => .sin
  | .cos => .cos
  | .tan => .tan
  | .tanh => .tanh
  | .log => .log
  | .exp => .exp
  | .square => .square
  | .sqrt => .sqrt
  | .power => .power
  | .abs => .abs
  | .analyticQuotient => .analyticQuotient
  | .subFunction name => .subFunction name
  | .cube => .cube
  | .cbrt => .cbrt
  | .root => .root
  | .logistic => .logistic
  | .erf => .erf
  | .min => .min
  | .max => .max

namespace Expr

mutual

def map (f : α → β) : Expr α → Expr β
  | node s args => node (s.map f) (mapAll f args)

def mapAll (f : α → β) : List (Expr α) → List (Expr β)
  | [] => []
  | a :: rest => map f a :: mapAll f rest

end

variable (f : α → β)

theorem mapAll_eq (args : List (Expr α)) : mapAll f args = args.map (map f) := by
  induction args with
  | nil => rfl
  | cons a rest ih => rw [mapAll, ih, List.map_cons]

@[simp] theorem map_node (s : Symbol α) (args : List (Expr α)) :
    (node s args).map f = node (s.map f) (args.map (map f)) := by
  rw [map, mapAll_eq]

theorem preorder_map (e : Expr α) : (e.map f).preorder = e.preorder.map (map f) := by
  induction e with
  | node s args ih =>
    rw [map_node, preorder_node, preorder_node, List.map_cons, map_node, List.flatMap_map,
      List.map_flatMap]
    exact congrArg _ (List.flatMap_congr ih)

theorem variableOccurrences_map (e : Expr α) :
    (e.map f).variableOccurrences = e.variableOccurrences := by
  induction e with
  | node s args ih =>
    rw [map_node, variableOccurrences_node, variableOccurrences_node, List.flatMap_map,
      List.flatMap_congr ih]
    cases s <;> rfl

theorem variableNames_map (e : Expr α) : (e.map f).variableNames = e.variableNames :=
  congrArg List.eraseDups (variableOccurrences_map f e)

theorem rename_map (e : Expr α) : ∀ s : Renaming, (Renaming.rename (e.map f)).run s =
    (((Renaming.rename e).run s).1.map f, ((Renaming.rename e).run s).2) := by
  induction e with
  | node sym args ih =>
    have hargs : ∀ s : Renaming, (Renaming.renameAll (args.map (map f))).run s =
        (((Renaming.renameAll args).run s).1.map (map f), ((Renaming.renameAll args).run s).2) := by
      clear sym
      induction args with
      | nil => exact fun _ => rfl
      | cons a args iha =>
        intro s
        rw [List.map_cons, Renaming.renameAll_run_cons, Renaming.renameAll_run_cons,
          ih a (by simp) s, iha (fun b hb => ih b (List.mem_cons_of_mem _ hb))]
        rfl
    intro s
    cases sym with
    | var name weight =>
      rw [map_node, Symbol.map, Renaming.rename_run_var, Renaming.rename_run_var, hargs, map_node]
      rfl
    | _ =>
      rw [map_node, Symbol.map, Renaming.rename_run_node rfl, Renaming.rename_run_node rfl,
        hargs, map_node]
      rfl

theorem tree_of_map (e : Expr α) :
    (OccurrenceTree.of (e.map f)).tree = (OccurrenceTree.of e).tree.map f := by
  have h := rename_map f e ⟨e.variableNames, []⟩
  show ((Renaming.rename (e.map f)).run ⟨(e.map f).variableNames, []⟩).1 = _
  rw [variableNames_map, h]
  rfl

theorem names_of_map (e : Expr α) :
    (OccurrenceTree.of (e.map f)).names = (OccurrenceTree.of e).names := by
  have h := rename_map f e ⟨e.variableNames, []⟩
  show ((Renaming.rename (e.map f)).run ⟨(e.map f).variableNames, []⟩).2.names = _
  rw [variableNames_map, h]
  rfl

theorem eq_constant_of_relabel {g : String → String} {a : Expr α} {c : α}
    (h : a.relabel g = constant c) : a = constant c := by
  obtain ⟨s, args⟩ := a
  rw [relabel_node, constant] at h
  injection h with hs hargs
  obtain rfl : s = .const c := by cases s <;> cases hs; rfl
  rw [List.map_eq_nil_iff.1 hargs, constant]

/-! ### Rational models -/

section
variable {K : Type} [NatCast K]

/-- The expressions in which nothing but arithmetic and absolute values is applied. -/
inductive IsRational : Expr K → Prop where
  | var (name : String) (weight : K) : IsRational (weighted name weight)
  | const (c : K) : IsRational (constant c)
  | add {args : List (Expr K)} (hne : args ≠ []) (h : ∀ a ∈ args, IsRational a) : IsRational
    (node .add args)
  | sub {args : List (Expr K)} (hne : args ≠ []) (h : ∀ a ∈ args, IsRational a) : IsRational
    (node .sub args)
  | mul {args : List (Expr K)} (hne : args ≠ []) (h : ∀ a ∈ args, IsRational a) : IsRational
    (node .mul args)
  | div {args : List (Expr K)} (hne : args ≠ []) (h : ∀ a ∈ args, IsRational a) : IsRational
    (node .div args)
  | square {a : Expr K} (h : IsRational a) : IsRational (unary .square a)
  | abs {a : Expr K} (h : IsRational a) : IsRational (unary .abs a)
  | subFunction (name : String) {a : Expr K} (h : IsRational a) : IsRational
    (unary (.subFunction name) a)
  | power {a : Expr K} (n : ℕ) (h : IsRational a) : IsRational (binary .power a (constant (n : K)))

/-- No exponent of a power is too great to be evaluated. -/
def ExponentsFit (e : Expr K) : Prop :=
  ∀ (a : Expr K) (n : ℕ), binary .power a (constant (n : K)) ∈ e.preorder → n ≤ maxExponent

omit [NatCast K] in
def DivisionFree (e : Expr K) : Prop := ∀ args, node .div args ∉ e.preorder

variable {e : Expr K}

omit [NatCast K] in
theorem DivisionFree.map (h : e.DivisionFree) (f : K → β) : (e.map f).DivisionFree := by
  intro args hargs
  rw [preorder_map, List.mem_map] at hargs
  obtain ⟨⟨s, as⟩, ha, heq⟩ := hargs
  rw [map_node] at heq
  cases s <;> cases heq
  exact h as ha

omit [NatCast K] in
theorem DivisionFree.of_relabel {g : String → String} (h : (e.relabel g).DivisionFree) :
    e.DivisionFree := by
  intro args hargs
  have hmem := List.mem_map_of_mem (f := relabel g) hargs
  rw [← preorder_relabel, relabel_node] at hmem
  exact h _ hmem

theorem ExponentsFit.of_mem {s : Symbol K} {args : List (Expr K)}
    (h : (node s args).ExponentsFit) {a : Expr K}
    (ha : a ∈ args) : a.ExponentsFit := fun b n hb => h b n (mem_preorder_of_mem ha hb)

theorem IsPolynomial.isRational {V : Set String} (h : e.IsPolynomial V) : e.IsRational := by
  induction h with
  | var h => exact .var _ _
  | const c => exact .const c
  | add hne h ih => exact .add hne ih
  | sub hne h ih => exact .sub hne ih
  | mul hne h ih => exact .mul hne ih
  | square h ih => exact .square ih
  | power hn h ih => exact .power _ ih

namespace IsRational

theorem exists_opcode (h : e.IsRational) (f : K → β) : ∀ a ∈ (e.map f).preorder, ∃ op,
    Opcode.ofSymbol? a.symbol = some op ∧ op.accepts a.operands.length = true := by
  have hnode {s : Symbol K} {args : List (Expr K)}
      (hs : ∃ op, Opcode.ofSymbol? (s.map f) = some op ∧ op.accepts args.length = true)
      (hargs : ∀ b ∈ args, ∀ a ∈ (b.map f).preorder, ∃ op, Opcode.ofSymbol? a.symbol = some op ∧
        op.accepts a.operands.length = true) :
      ∀ a ∈ ((node s args).map f).preorder, ∃ op, Opcode.ofSymbol? a.symbol = some op ∧
        op.accepts a.operands.length = true := by
    intro a ha
    rw [map_node, preorder_node, List.mem_cons, List.mem_flatMap] at ha
    rcases ha with rfl | ⟨b, hb, ha⟩
    · simpa [symbol, operands] using hs
    · obtain ⟨c, hc, rfl⟩ := List.mem_map.1 hb
      exact hargs c hc a ha
  have hlen {args : List (Expr K)} (hne : args ≠ []) : decide (1 ≤ args.length) = true := by
    simpa [Nat.one_le_iff_ne_zero] using hne
  induction h with
  | var name weight => exact hnode ⟨_, rfl, rfl⟩ (by simp)
  | const c => exact hnode ⟨_, rfl, rfl⟩ (by simp)
  | add hne h ih | sub hne h ih | mul hne h ih | div hne h ih => exact hnode ⟨_, rfl, hlen hne⟩ ih
  | square h ih | abs h ih | subFunction name h ih => exact hnode ⟨_, rfl, rfl⟩ (by simpa using ih)
  | power n h ih =>
    refine hnode ⟨_, rfl, rfl⟩ ?_
    simp only [List.mem_cons, List.not_mem_nil, or_false, forall_eq_or_imp, forall_eq]
    exact ⟨ih, hnode ⟨_, rfl, rfl⟩ (by simp)⟩

theorem exists_compile (h : e.IsRational) (f : K → β) : ∃ p, Program.compile (e.map f) = .ok p :=
  instructions_isOk 0 (h.exists_opcode f)

theorem of_relabel (g : String → String) (h : (e.relabel g).IsRational) : e.IsRational := by
  induction e with
  | node s args ih =>
    have hall {bs : List (Expr K)} (hbs : args.map (relabel g) = bs) (h : ∀ b ∈ bs, b.IsRational) :
        ∀ a ∈ args, a.IsRational := by
      intro a ha
      exact ih a ha (h _ (hbs ▸ List.mem_map_of_mem ha))
    have hne {bs : List (Expr K)} (hbs : args.map (relabel g) = bs) (hn : bs ≠ []) : args ≠ [] :=
      fun hargs => hn (by rw [← hbs, hargs, List.map_nil])
    have hone {b : Expr K} (hbs : args.map (relabel g) = [b]) (h : b.IsRational) :
        ∃ a, args = [a] ∧ a.IsRational := by
      obtain ⟨a, ha, -⟩ := List.map_eq_singleton_iff.1 hbs
      exact ⟨a, ha, hall hbs (by simpa using h) a (by simp [ha])⟩
    rcases hname : (node s []).variableName? with _ | name
    -- renaming keeps all symbols but variables
    · rw [relabel_node, symbol_relabel_eq_self g hname] at h
      generalize hbs : args.map (relabel g) = bs at h
      cases h with
      | var name weight => cases hname
      | const c =>
        obtain rfl := List.map_eq_nil_iff.1 hbs
        exact .const c
      | add hn h => exact .add (hne hbs hn) (hall hbs h)
      | sub hn h => exact .sub (hne hbs hn) (hall hbs h)
      | mul hn h => exact .mul (hne hbs hn) (hall hbs h)
      | div hn h => exact .div (hne hbs hn) (hall hbs h)
      | square h =>
        obtain ⟨a, rfl, ha⟩ := hone hbs h
        exact .square ha
      | abs h =>
        obtain ⟨a, rfl, ha⟩ := hone hbs h
        exact .abs ha
      | subFunction name h =>
        obtain ⟨a, rfl, ha⟩ := hone hbs h
        exact .subFunction name ha
      | power n h =>
        obtain ⟨a, args, rfl, rfl, hrest⟩ := List.map_eq_cons_iff.1 hbs
        obtain ⟨c, rfl, hc⟩ := List.map_eq_singleton_iff.1 hrest
        rw [eq_constant_of_relabel hc]
        exact .power n (ih a (by simp) h)
    · cases s with
      | var name weight =>
        rw [relabel_node, Symbol.relabel] at h
        generalize hbs : args.map (relabel g) = bs at h
        cases h
        obtain rfl := List.map_eq_nil_iff.1 hbs
        exact .var _ _
      | _ => cases hname

end IsRational

end

end Expr

end ModalBounds
