import Mathlib
import ModalBounds.Proofs.Evaluation.Recorded
import ModalBounds.Proofs.Interval.Undefined

/-!
# Undefined nodes

A node over an undefined operand is undefined itself, but for four operations that can hide it
(`Symbol.Absorbs`): the absolute value, the square and the even powers of an interval that folds
away, an analytic quotient by one, and the power zero. So an undefined node makes the root of an
expression undefined, unless there is a node between them that absorbs it
(`exists_isUndefined_preorder_iff`).
-/

namespace ModalBounds

open ModalInterval

variable {α : Type} [Elementary α]

/-- The operations that have a defined value over undefined operands. -/
def Symbol.Absorbs : Symbol α → List (ModalInterval α) → Prop
  | .abs, [x] => x.FoldsAway
  | .square, [x] => x.FoldsAway
  | .power, [x, n] => ∃ k, exponent? n.lower = some k ∧
      (k = 0 ∧ x.isUndefined = true ∨ k ≠ 0 ∧ k % 2 = 0 ∧ x.FoldsAway)
  | .analyticQuotient, [_, y] => y.FoldsAway
  | _, _ => False

instance (x : ModalInterval α) : Decidable x.FoldsAway := inferInstanceAs (Decidable (_ ∨ _))

instance (s : Symbol α) (xs : List (ModalInterval α)) : Decidable (s.Absorbs xs) := by
  unfold Symbol.Absorbs
  split <;> infer_instance

theorem Symbol.Absorbs.exists_isUndefined {s : Symbol α} {xs : List (ModalInterval α)}
    (h : s.Absorbs xs) : ∃ x ∈ xs, x.isUndefined = true := by
  unfold Absorbs at h
  split at h
  · exact ⟨_, by simp, h.isUndefined⟩
  · exact ⟨_, by simp, h.isUndefined⟩
  · obtain ⟨k, -, ⟨-, h⟩ | ⟨-, -, h⟩⟩ := h
    · exact ⟨_, by simp, h⟩
    · exact ⟨_, by simp, h.isUndefined⟩
  · exact ⟨_, by simp, h.isUndefined⟩
  · cases h

section
variable [LawfulUndefined α] {env : Environment α}

omit [LawfulUndefined α] in
theorem isUndefined_foldl {op : ModalInterval α → ModalInterval α → ModalInterval α}
    (hop : ∀ {x y}, x.isUndefined = true ∨ y.isUndefined = true → (op x y).isUndefined = true)
    {x : ModalInterval α} {xs : List (ModalInterval α)} (h : ∃ y ∈ x :: xs, y.isUndefined = true) :
    (xs.foldl op x).isUndefined = true := by
  induction xs generalizing x with
  | nil => simpa using h
  | cons z xs ih =>
    refine ih ?_
    rw [List.exists_mem_cons_iff, List.exists_mem_cons_iff, ← or_assoc] at h
    exact (List.exists_mem_cons_iff _ _ _).2 (h.imp_left hop)

theorem powerOf_eq_ok {x n y : ModalInterval α} (h : Machine.powerOf x n = .ok y) :
    n.isUndefined = false ∧ ∃ k, exponent? n.lower = some k ∧ y = x.zpow k := by
  rw [Machine.powerOf] at h
  split at h
  · rename_i hdegenerate
    refine ⟨?_, ?_⟩
    · by_contra hn
      rw [Bool.not_eq_false, isUndefined_iff] at hn
      rw [isDegenerate, LawfulUndefined.beq_eq_false hn] at hdegenerate
      cases hdegenerate
    · rw [pow?] at h
      cases hk : exponent? n.lower with
      | none => rw [hk] at h; cases h
      | some k => rw [hk] at h; cases h; exact ⟨k, rfl, rfl⟩
  · cases h

theorem Symbol.isUndefined_or_absorbs_unary {s : Symbol α} {op : Opcode} {x y : ModalInterval α}
    (hop : Opcode.ofSymbol? s = some op) (hacc : op.accepts 1 = true)
    (h : s.interval env [x] = .ok y)
    (hx : x.isUndefined = true) : y.isUndefined = true ∨ s.Absorbs [x] := by
  cases s with
  | add | mul | subFunction => cases h; exact .inl hx
  | sub => cases h; exact .inl (isUndefined_neg hx)
  | div => cases h; exact .inl (isUndefined_recip hx)
  | sin => cases h; exact .inl (isUndefined_sin hx)
  | cos => cases h; exact .inl (isUndefined_cos hx)
  | tan => cases h; exact .inl (isUndefined_tan hx)
  | tanh => cases h; exact .inl (isUndefined_tanh hx)
  | log => cases h; exact .inl (isUndefined_log hx)
  | exp => cases h; exact .inl (isUndefined_exp hx)
  | sqrt => cases h; exact .inl (isUndefined_sqrt hx)
  | abs =>
    cases h
    rw [or_iff_not_imp_left, Bool.not_eq_true]
    exact foldsAway_of_abs hx
  | square =>
    cases h
    rw [or_iff_not_imp_left, Bool.not_eq_true]
    exact foldsAway_of_square hx
  | var | const | power | analyticQuotient => cases hop; cases hacc
  | cube | cbrt | root | logistic | erf | min | max => cases hop

/-- A node over an undefined operand is undefined, unless it absorbs that. -/
theorem Symbol.isUndefined_or_absorbs {s : Symbol α} {op : Opcode} {xs : List (ModalInterval α)}
    {y : ModalInterval α} (hop : Opcode.ofSymbol? s = some op) (hacc : op.accepts xs.length = true)
    (h : s.interval env xs = .ok y) (hu : ∃ x ∈ xs, x.isUndefined = true) :
    y.isUndefined = true ∨ s.Absorbs xs := by
  cases s with
  | var name weight =>
    cases hop
    obtain rfl : xs = [] := by simpa [Opcode.accepts] using hacc
    simp at hu
  | const value =>
    cases hop
    obtain rfl : xs = [] := by simpa [Opcode.accepts] using hacc
    simp at hu
  | add =>
    cases xs with
    | nil => simp at hu
    | cons x xs => cases h; exact .inl (isUndefined_foldl isUndefined_add hu)
  | mul =>
    cases xs with
    | nil => simp at hu
    | cons x xs => cases h; exact .inl (isUndefined_foldl isUndefined_mul hu)
  | sub =>
    rcases xs with _ | ⟨x, _ | ⟨z, xs⟩⟩
    · simp at hu
    · exact isUndefined_or_absorbs_unary hop hacc h (by simpa using hu)
    · cases h; exact .inl (isUndefined_foldl isUndefined_sub hu)
  | div =>
    rcases xs with _ | ⟨x, _ | ⟨z, xs⟩⟩
    · simp at hu
    · exact isUndefined_or_absorbs_unary hop hacc h (by simpa using hu)
    · cases h; exact .inl (isUndefined_foldl isUndefined_div hu)
  | power =>
    cases hop
    obtain ⟨x, n, rfl⟩ := List.length_eq_two.1 (by simpa [Opcode.accepts] using hacc)
    -- an undefined exponent is no point, so it is the base that is undefined
    obtain ⟨hn, k, hk, rfl⟩ := powerOf_eq_ok h
    have hx : x.isUndefined = true := by simpa [hn] using hu
    by_cases hy : (x.zpow k).isUndefined = true
    · exact .inl hy
    · rw [Bool.not_eq_true] at hy
      exact .inr ⟨k, hk, (eq_zero_or_foldsAway_of_zpow hx hy).imp_left fun h => ⟨h, hx⟩⟩
  | analyticQuotient =>
    cases hop
    obtain ⟨x, z, rfl⟩ := List.length_eq_two.1 (by simpa [Opcode.accepts] using hacc)
    cases h
    rw [or_iff_not_imp_left, Bool.not_eq_true]
    exact foldsAway_of_analyticQuotient (by simpa using hu)
  | sin | cos | tan | tanh | log | exp | square | sqrt | abs | subFunction =>
    cases hop
    obtain ⟨x, rfl⟩ := List.length_eq_one_iff.1 (by simpa [Opcode.accepts] using hacc)
    exact isUndefined_or_absorbs_unary rfl hacc h (by simpa using hu)
  | cube | cbrt | root | logistic | erf | min | max => cases hop

end

/-! ### Expressions -/

namespace Expr

variable {env : Environment α} {e : Expr α}

def IsUndefined (env : Environment α) (e : Expr α) : Prop :=
  ∃ x, e.interval env = .ok x ∧ x.isUndefined = true

/-- A node with a defined value that absorbs an undefined operand. -/
def AbsorbsUndefined (env : Environment α) (e : Expr α) : Prop :=
  ∃ xs x, intervals env e.operands = .ok xs ∧ e.symbol.interval env xs = .ok x ∧
    x.isUndefined = false ∧
    e.symbol.Absorbs xs

instance (env : Environment α) (e : Expr α) : Decidable (e.AbsorbsUndefined env) :=
  decidable_of_iff
    (∃ xs ∈ (intervals env e.operands).toOption, ∃ x ∈ (e.symbol.interval env xs).toOption,
      x.isUndefined = false ∧ e.symbol.Absorbs xs) (by
    simp only [AbsorbsUndefined, Option.mem_def, toOption_eq_some, exists_and_left])

theorem exists_isUndefined_iff {args : List (Expr α)} {xs : List (ModalInterval α)}
    (h : intervals env args = .ok xs) :
    (∃ x ∈ xs, x.isUndefined = true) ↔ ∃ a ∈ args, a.IsUndefined env := by
  have hargs := intervals_eq_ok.1 h
  clear h
  induction hargs with
  | nil => simp
  | cons hx _ ih =>
    rw [List.exists_mem_cons_iff, List.exists_mem_cons_iff]
    refine or_congr ⟨fun h => ⟨_, hx, h⟩, fun ⟨y, hy, h⟩ => ?_⟩ ih
    rw [hx] at hy
    cases hy
    exact h

theorem AbsorbsUndefined.exists_isUndefined (h : e.AbsorbsUndefined env) :
    ∃ a ∈ e.preorder, a.IsUndefined env := by
  obtain ⟨s, args⟩ := e
  obtain ⟨xs, x, hxs, -, -, habsorbs⟩ := h
  obtain ⟨a, ha, hu⟩ := (exists_isUndefined_iff hxs).1 habsorbs.exists_isUndefined
  exact ⟨a, mem_preorder_of_mem ha a.mem_preorder_self, hu⟩

/-- A node is undefined exactly if the whole is, or an absorbing node lies above it. -/
theorem exists_isUndefined_preorder_iff [LawfulUndefined α] {x : ModalInterval α}
    (hacc : ∀ a ∈ e.preorder, ∃ op,
      Opcode.ofSymbol? a.symbol = some op ∧ op.accepts a.operands.length = true)
    (hx : e.interval env = .ok x) :
    (∃ a ∈ e.preorder, a.IsUndefined env) ↔
      x.isUndefined = true ∨ ∃ a ∈ e.preorder, a.AbsorbsUndefined env := by
  constructor
  · rintro ⟨a, ha, hu⟩
    induction e generalizing x with
    | node s args ih =>
      obtain ⟨xs, hxs, hs⟩ := bind_eq_ok.1 hx
      rw [preorder_node, List.mem_cons, List.mem_flatMap] at ha
      rcases ha with rfl | ⟨b, hb, ha⟩
      · obtain ⟨y, hy, hu⟩ := hu
        rw [hx] at hy
        cases hy
        exact .inl hu
      · obtain ⟨y, -, hy⟩ := exists_of_forall₂ (intervals_eq_ok.1 hxs) b hb
        rcases ih b hb (fun c hc => hacc c (mem_preorder_of_mem hb hc)) hy ha
          with hundef | ⟨c, hc, habsorbs⟩
        -- the operand is undefined: so is this node, or it is the one that absorbs
        · obtain ⟨op, hop, hlen⟩ := hacc _ (mem_preorder_self _)
          rw [symbol] at hop
          rw [operands, (intervals_eq_ok.1 hxs).length_eq] at hlen
          have hoperand := (exists_isUndefined_iff hxs).2 ⟨b, hb, y, hy, hundef⟩
          cases hdefined : x.isUndefined with
          | true => exact .inl rfl
          | false =>
            have habsorbs :=
              (s.isUndefined_or_absorbs hop hlen hs hoperand).resolve_left (by simp [hdefined])
            exact .inr ⟨_, mem_preorder_self _, xs, x, hxs, hs, hdefined, habsorbs⟩
        · exact .inr ⟨c, mem_preorder_of_mem hb hc, habsorbs⟩
  · rintro (h | ⟨a, ha, h⟩)
    · exact ⟨e, e.mem_preorder_self, x, hx, h⟩
    · obtain ⟨b, hb, hu⟩ := h.exists_isUndefined
      exact ⟨b, mem_preorder_trans ha hb, hu⟩

end Expr

/-! ### Runs -/

namespace Program

section
variable {env : Environment α} {e : Expr α} {p : Program α} {root : ModalInterval α}
  {machine : Machine α}
variable (hp : compile e = .ok p) (h : p.run env ∅ = (.ok root, machine))

include hp h

theorem exists_recorded_isUndefined_iff :
    (∃ (n : Nat) (x : ModalInterval α), machine.recorded[n]? = some x ∧ x.isUndefined = true) ↔
      ∃ a ∈ e.preorder, a.IsUndefined env := by
  constructor
  · rintro ⟨n, x, hx, hu⟩
    rw [getElem?_recorded hp h, Option.bind_eq_some_iff] at hx
    obtain ⟨a, ha, hx⟩ := hx
    exact ⟨a, List.mem_of_getElem? ha, x, toOption_eq_some.1 hx, hu⟩
  · rintro ⟨a, ha, x, hx, hu⟩
    obtain ⟨n, ha⟩ := List.getElem?_of_mem ha
    refine ⟨n, x, ?_, hu⟩
    rw [getElem?_recorded hp h, ha, Option.bind_some]
    exact toOption_eq_some.2 hx

/-- An undefined node makes the root undefined exactly if absorbing nodes do: these are the only
places where an undefined bound is lost. -/
theorem undefined_propagates_iff [LawfulUndefined α] :
    ((∃ (n : Nat) (x : ModalInterval α), machine.recorded[n]? = some x ∧ x.isUndefined = true) →
        root.isUndefined = true) ↔
      ((∃ a ∈ e.preorder, a.AbsorbsUndefined env) → root.isUndefined = true) := by
  have hroot : e.interval env = .ok root := by
    rw [← evaluate_eq hp (isSome_of_run_eq_ok hp (congrArg Prod.fst h)), evaluate, h]
  rw [exists_recorded_isUndefined_iff hp h,
    Expr.exists_isUndefined_preorder_iff (accepts_of_mem hp) hroot]
  exact ⟨fun hpropagates habsorbs => hpropagates (.inr habsorbs),
    fun habsorbs hundefined => hundefined.elim id habsorbs⟩

end

end Program

/-! ### A lost bound -/

/-- The model `abs (sqrt x)`. -/
def absOfRoot : Expr Float := .unary .abs (.unary .sqrt (.weighted "x" 1))

/-- The code of `abs (sqrt x)`. -/
def absOfRootCode : Program Float :=
  [⟨.abs, absOfRoot, 0, 1⟩, ⟨.sqrt, .unary .sqrt (.weighted "x" 1), 1, 1⟩,
    ⟨.var, .weighted "x" 1, 2, 0⟩]

/-- The model `abs x + sqrt x`. -/
def absPlusRoot : Expr Float :=
  .binary .add (.unary .abs (.weighted "x" 1)) (.unary .sqrt (.weighted "x" 1))

/-- The code of `abs x + sqrt x`. -/
def absPlusRootCode : Program Float :=
  [⟨.add, absPlusRoot, 0, 2⟩, ⟨.abs, .unary .abs (.weighted "x" 1), 1, 1⟩,
    ⟨.var, .weighted "x" 1, 2, 0⟩, ⟨.sqrt, .unary .sqrt (.weighted "x" 1), 3, 1⟩,
    ⟨.var, .weighted "x" 1, 4, 0⟩]

/-- The range `[-1, 4]` of `x`. -/
def aroundZero : Ranges Float := (∅ : Ranges Float).insert "x" ⟨-1, 4⟩

section
attribute [local instance] Double.withIdentities

/-- Over `[-1, 4]` the square root is undefined. The absolute value of it is not, so there is a node
that absorbs it; its sum with the absolute value of `x` is, since there is none. -/
theorem exists_absorbs_absOfRoot :
    (Program.compile absOfRoot = .ok absOfRootCode ∧
      ∃ a ∈ absOfRoot.preorder, a.AbsorbsUndefined aroundZero.environment) ∧
    Program.compile absPlusRoot = .ok absPlusRootCode ∧
      ∃ root machine x, absPlusRootCode.run aroundZero.environment ∅ = (.ok root, machine) ∧
        machine.recorded[3]? = some x ∧ x.isUndefined = true ∧ root.isUndefined = true := by
  refine ⟨⟨rfl, ?_⟩, rfl, ?_⟩
  · have hroot : (absOfRootCode.run aroundZero.environment ∅).1.toOption.map isUndefined =
        some false := by
      decide +kernel
    have hnode : ((absOfRootCode.run aroundZero.environment ∅).2.recorded[1]?).map isUndefined =
        some true := by
      decide +kernel
    rcases hrun : absOfRootCode.run aroundZero.environment ∅ with ⟨result, machine⟩
    rw [hrun] at hroot hnode
    obtain ⟨root, hroot, hdefined⟩ := Option.map_eq_some_iff.1 hroot
    obtain rfl := toOption_eq_some.1 hroot
    by_contra hnone
    have hpropagates := (Program.undefined_propagates_iff (e := absOfRoot) rfl hrun).2 fun h =>
      absurd h hnone
    rw [hpropagates ⟨1, Option.map_eq_some_iff.1 hnode⟩] at hdefined
    cases hdefined
  · have hroot : (absPlusRootCode.run aroundZero.environment ∅).1.toOption.isSome := by
      decide +kernel
    have hnode : ((absPlusRootCode.run aroundZero.environment ∅).2.recorded[3]?).map isUndefined =
        some true := by
      decide +kernel
    have hnone : ¬ ∃ a ∈ absPlusRoot.preorder, a.AbsorbsUndefined aroundZero.environment := by
      decide +kernel
    rcases hrun : absPlusRootCode.run aroundZero.environment ∅ with ⟨result, machine⟩
    rw [hrun] at hroot hnode
    obtain ⟨root, hroot⟩ := Option.isSome_iff_exists.1 hroot
    obtain rfl := toOption_eq_some.1 hroot
    obtain ⟨x, hx, hundefined⟩ := Option.map_eq_some_iff.1 hnode
    have hpropagates := (Program.undefined_propagates_iff (e := absPlusRoot) rfl hrun).2 fun h =>
      absurd h hnone
    exact ⟨root, machine, x, rfl, hx, hundefined, hpropagates ⟨3, x, hx, hundefined⟩⟩

end

/-- Over `[-1, 4]` the square root is undefined, but not its absolute value. -/
theorem isUndefined_lost_absOfRoot :
    ∃ root machine x, Program.compile absOfRoot = .ok absOfRootCode ∧
      absOfRootCode.run aroundZero.environment ∅ = (.ok root, machine) ∧
      machine.recorded[1]? = some x ∧ x.isUndefined = true ∧ root.isUndefined = false := by
  have hroot : (absOfRootCode.run aroundZero.environment ∅).1.toOption.map isUndefined =
      some false := by
    decide +kernel
  have hnode : ((absOfRootCode.run aroundZero.environment ∅).2.recorded[1]?).map isUndefined =
      some true := by
    decide +kernel
  rcases hrun : absOfRootCode.run aroundZero.environment ∅ with ⟨result, machine⟩
  rw [hrun] at hroot hnode
  obtain ⟨root, hroot, hdefined⟩ := Option.map_eq_some_iff.1 hroot
  obtain rfl := toOption_eq_some.1 hroot
  obtain ⟨x, hx, hundefined⟩ := Option.map_eq_some_iff.1 hnode
  exact ⟨root, machine, x, rfl, rfl, hx, hundefined, hdefined⟩

end ModalBounds
