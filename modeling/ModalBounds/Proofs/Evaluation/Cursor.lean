import Mathlib
import ModalBounds.Proofs.Evaluation.Outcome
import ModalBounds.Proofs.Evaluation.Success
import ModalBounds.Proofs.Scalar.Field

/-!
# Where the cursor goes

The code of an expression has one stretch for each node, which starts at the number of the node and
is as long as the node has nodes below it (`exists_append_of_getElem?_preorder`). A call that finds
the cursor at the start of a stretch answers with the interval of that node, and if it has one,
leaves the cursor at the stretch's end (`next_drop`). So a whole run is the recursion over the
expression (`run_refines_interval`), and the failures for which no expression is to blame, a program
that ends early and a name that is asked of no variable, do not occur.
-/

namespace ModalBounds

namespace Expr

variable {α : Type}

/-- The nodes of the `n`-th node's subexpression stand together, from the place `n` on. -/
theorem exists_append_of_getElem?_preorder {e a : Expr α} {n : ℕ} (h : e.preorder[n]? = some a) :
    ∃ l₁ l₂, e.preorder = l₁ ++ (a.preorder ++ l₂) ∧ l₁.length = n := by
  induction e generalizing n with
  | node s args ih =>
    rw [preorder_node] at h ⊢
    cases n with
    | zero =>
      rw [List.getElem?_cons_zero, Option.some_inj] at h
      exact ⟨[], [], by rw [← h, preorder_node, List.append_nil, List.nil_append], rfl⟩
    | succ n =>
      rw [List.getElem?_cons_succ] at h
      suffices hargs : ∃ l₁ l₂, args.flatMap preorder = l₁ ++ (a.preorder ++ l₂) ∧ l₁.length = n by
        obtain ⟨l₁, l₂, hl, hn⟩ := hargs
        exact ⟨node s args :: l₁, l₂, by rw [hl, List.cons_append], by rw [List.length_cons, hn]⟩
      clear s
      -- the operand that has the node is found by its place
      induction args generalizing n with
      | nil => simp at h
      | cons b args iha =>
        rw [List.forall_mem_cons] at ih
        rw [List.flatMap_cons] at h ⊢
        rcases Nat.lt_or_ge n b.preorder.length with hn | hn
        · rw [List.getElem?_append_left hn] at h
          obtain ⟨l₁, l₂, hl, hlen⟩ := ih.1 h
          exact ⟨l₁, l₂ ++ args.flatMap preorder, by rw [hl]; simp only [List.append_assoc], hlen⟩
        · rw [List.getElem?_append_right hn] at h
          obtain ⟨l₁, l₂, hl, hlen⟩ := iha ih.2 _ h
          exact ⟨b.preorder ++ l₁, l₂, by rw [hl, List.append_assoc],
            by rw [List.length_append, hlen, Nat.add_sub_cancel' hn]⟩

end Expr

namespace Program

variable {α : Type} [Elementary α] {e : Expr α} {p : Program α} {env : Environment α}

omit [Elementary α] in
theorem exists_instructions_of_getElem?_preorder (hp : compile e = .ok p) {n : ℕ} {a : Expr α}
    (ha : e.preorder[n]? = some a) :
    ∃ c, instructions n a.preorder = .ok c ∧ p.drop n = c ++ p.drop (n + a.size) := by
  obtain ⟨l₁, l₂, hl, rfl⟩ := e.exists_append_of_getElem?_preorder ha
  rw [compile, hl] at hp
  obtain ⟨c₁, c', h₁, h', rfl⟩ := instructions_append hp
  obtain ⟨c, c₂, hc, -, rfl⟩ := instructions_append h'
  have hlen₁ : c₁.length = l₁.length := length_instructions h₁
  have hlen : c.length = a.size := by rw [length_instructions hc, Expr.length_preorder]
  refine ⟨c, by rwa [Nat.zero_add] at hc, ?_⟩
  rw [← hlen₁, ← hlen, ← List.drop_drop, List.drop_left, List.drop_left]

variable (env) in
/-- A call with the cursor at a node's number evaluates that node, and takes its stretch of the
code. -/
theorem next_drop (hp : compile e = .ok p) {n : ℕ} {a : Expr α}
    (ha : e.preorder[n]? = some a) {fuel : ℕ}
    (hfuel : a.size ≤ fuel) (recorded : NodeIntervals α) :
    ∃ machine, (Machine.next env fuel).run.run ⟨p.drop n, recorded⟩ = (a.interval env, machine) ∧
      ∀ x, a.interval env = .ok x → machine.rest = p.drop (n + a.size) := by
  obtain ⟨c, hc, hdrop⟩ := exists_instructions_of_getElem?_preorder hp ha
  obtain ⟨left, hrun, hleft⟩ := a.simulates_record env hc hfuel (p.drop (n + a.size)) recorded
  rw [← hdrop, Expr.run_record_fst] at hrun
  rw [Expr.run_record_fst] at hleft
  exact ⟨_, hrun, hleft⟩

/-- No run of a program finds its code used up, or a name missing where it expects a variable. -/
theorem run_ne_malformedTree (hp : compile e = .ok p) (recorded : NodeIntervals α) (n : ℕ)
    (cause : Malformation) : (p.run env recorded).1 ≠ .error (.malformedTree n cause) := by
  rcases hmissing : p.missing? fun name => (env name).isSome with _ | v
  · have henv : ∀ v ∈ e.variableOccurrences, (env v).isSome := by
      rw [missing?_eq_find?_variableOccurrences hp] at hmissing
      exact isSome_of_find?_eq_none hmissing
    obtain ⟨left, hrun⟩ := run_eq hp henv recorded
    have hends := (Expr.exists_compile_iff.1 ⟨p, hp⟩).ends_interval henv fun _ _ x y _ =>
      ends_powerOf x y
    rw [hrun, Expr.run_record_fst]
    exact hends.of_error
  · rw [run, hmissing]
    simp

/-- A program is run as the expression is: with the same interval or the same error as the recursion
over its nodes. An evaluation that succeeds takes each instruction once, since a call at a node
takes the node's own instruction and those of its operands, one stretch after the other, and the
call at the root takes all. -/
theorem run_refines_interval (hp : compile e = .ok p)
    (henv : ∀ v ∈ e.variableOccurrences, (env v).isSome)
    (recorded : NodeIntervals α) :
    (p.run env recorded).1 = e.interval env ∧
    (∀ x, e.interval env = .ok x → (p.run env recorded).2.rest = []) ∧
    (∀ n a fuel, e.preorder[n]? = some a → a.size ≤ fuel → ∀ before, ∃ machine,
      (Machine.next env fuel).run.run ⟨p.drop n, before⟩ = (a.interval env, machine) ∧
      ∀ x, a.interval env = .ok x → machine.rest = p.drop (n + a.size)) ∧
    ∀ n cause, (p.run env recorded).1 ≠ .error (.malformedTree n cause) := by
  have hsize : p.length = e.size := by rw [length_instructions hp, Expr.length_preorder]
  have hroot : e.preorder[0]? = some e := by
    cases e
    rw [Expr.preorder_node]
    rfl
  -- the whole run is the call at the root
  obtain ⟨machine, hnext, hrest⟩ := next_drop env hp hroot hsize.ge recorded
  have hrun : p.run env recorded = (e.interval env, machine) := by
    have hmissing : p.missing? (fun name => (env name).isSome) = none :=
      (missing?_eq_none hp _).2 fun a ha v hv =>
        henv v (Expr.mem_variableOccurrences_iff.2 ⟨a, ha, hv⟩)
    rw [run, hmissing]
    exact hnext
  refine ⟨congrArg Prod.fst hrun, fun x hx => ?_, fun n a fuel ha hfuel =>
    next_drop env hp ha hfuel,
    run_ne_malformedTree hp recorded⟩
  rw [hrun, hrest x hx, Nat.zero_add, ← hsize, List.drop_length]

end Program

section
attribute [local instance] RealFunctions.zero

/-- The model `x - y - x ^ 2`, with three operands to its root. -/
def differenceLessSquare : Expr ℚ :=
  .node .sub [.ofVariable "x", .ofVariable "y", .binary .power (.ofVariable "x") (.constant 2)]

/-- The range `[1, 2]` for `x`, and `[0, 1]` for `y` before another range. -/
def overriddenRanges : Environment ℚ :=
  .orElse (Ranges.environment ((∅ : Ranges ℚ).insert "y" ⟨0, 1⟩))
    (Ranges.environment (((∅ : Ranges ℚ).insert "x" ⟨1, 2⟩).insert "y" ⟨7, 8⟩))

/-- The six instructions of `x - y - x ^ 2` are taken, and `[-4, 1]` is what comes out. -/
theorem run_differenceLessSquare :
    ∃ p bound, Program.compile differenceLessSquare = .ok p ∧ p.length = 6 ∧
    (p.run overriddenRanges ∅).1 = .ok bound ∧ bound.lower = -4 ∧ bound.upper = 1 ∧
    (p.run overriddenRanges ∅).2.rest = [] := by
  have hvars : differenceLessSquare.variableOccurrences = ["x", "y", "x"] := by decide +kernel
  have henv : ∀ v ∈ differenceLessSquare.variableOccurrences, (overriddenRanges v).isSome := by
    rw [hvars]
    decide +kernel
  obtain ⟨bound, hbound, hlower, hupper⟩ : ∃ bound,
      differenceLessSquare.interval overriddenRanges = .ok bound ∧
      bound.lower = -4 ∧ bound.upper = 1 := by
    refine ⟨_, rfl, ?_⟩
    decide +kernel
  have hp : Program.compile differenceLessSquare = .ok _ := rfl
  obtain ⟨hval, hrest, -, -⟩ := Program.run_refines_interval hp henv ∅
  exact ⟨_, bound, hp, rfl, hval.trans hbound, hlower, hupper, hrest bound hbound⟩

end

end ModalBounds
