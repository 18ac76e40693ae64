import Mathlib
import ModalBounds.Proofs.Evaluation.Recursion

/-!
# What a program comes to

A run comes to an interval or an error, and to the intervals that are recorded then. It is the error
of the first variable without a range, with nothing recorded, or what the recursion does
(`Program.outcome_eq`). The program looks for that variable in pre-order; the occurrences of
variables come in the same order after operands, since a variable has none.
-/

namespace ModalBounds

theorem isSome_of_find?_eq_none {β : Type} {f : String → Option β} {l : List String}
    (h : l.find? (fun v => !(f v).isSome) = none) : ∀ v ∈ l, (f v).isSome := by
  intro v hv
  simpa only [Bool.not_eq_true', Bool.not_eq_false] using List.find?_eq_none.1 h v hv

namespace Expr

variable {α : Type}

theorem filterMap_preorder {e : Expr α}
    (h : ∀ a ∈ e.preorder, (a.variableName?).isSome → a.operands = []) :
    e.preorder.filterMap variableName? = e.variableOccurrences := by
  induction e with
  | node s args ih =>
    have hargs : (args.flatMap preorder).filterMap variableName? =
        args.flatMap variableOccurrences := by
      rw [List.filterMap_flatMap]
      exact List.flatMap_congr fun a ha => ih a ha fun b hb => h b (mem_preorder_of_mem ha hb)
    rw [preorder_node, List.filterMap_cons, hargs, variableOccurrences_node]
    cases s with
    | var name weight =>
      obtain rfl : args = [] := h _ (mem_preorder_self _) rfl
      rfl
    | _ => simp [variableName?]

/-- The interval of an expression by itself, which is compiled and run. -/
def evaluate [Elementary α] (env : Environment α) (e : Expr α) :
    Except (ModelError α) (ModalInterval α) := do
  let p ← Program.compile e
  p.evaluate env

theorem evaluate_of_compile [Elementary α] {e : Expr α} {p : Program α}
    (hp : Program.compile e = .ok p) (env : Environment α) : e.evaluate env = p.evaluate env := by
  rw [evaluate, hp]
  rfl

end Expr

namespace Program

variable {α : Type} {e : Expr α} {p : Program α}

theorem missing?_eq_find?_variableOccurrences (hp : compile e = .ok p) (known : String → Bool) :
    p.missing? known = e.variableOccurrences.find? fun v => !known v := by
  rw [missing?_eq_find? hp, Expr.filterMap_preorder]
  intro a ha hvar
  obtain ⟨op, hop, hacc⟩ := accepts_of_mem hp a ha
  obtain ⟨s, args⟩ := a
  cases s <;> cases hvar
  cases hop
  simpa [Opcode.accepts] using hacc

variable [Elementary α]

/-- What a run comes to: an interval or an error, and the intervals that are recorded then. -/
def outcome (p : Program α) (env : Environment α) (recorded : NodeIntervals α) :
    Except (ModelError α) (ModalInterval α) × NodeIntervals α :=
  ((p.run env recorded).1, (p.run env recorded).2.recorded)

/-- It is the error of the first variable without a range, or what the recursion does. -/
theorem outcome_eq (hp : compile e = .ok p) (env : Environment α) (recorded : NodeIntervals α) :
    p.outcome env recorded = match e.variableOccurrences.find? fun v => !(env v).isSome with
      | some v => (.error (.missingRange v), recorded)
      | none => (e.record env 0).run.run recorded := by
  cases hfind : e.variableOccurrences.find? fun v => !(env v).isSome with
  | some v =>
    have hmissing := missing?_eq_find?_variableOccurrences hp fun v => (env v).isSome
    rw [outcome, run, hmissing, hfind]
  | none =>
    obtain ⟨left, hrun⟩ := run_eq hp (isSome_of_find?_eq_none hfind) recorded
    rw [outcome, hrun]
    rfl

end Program

/-- The error of the first variable without a range, or the interval by recursion. -/
theorem Expr.evaluate_eq [Elementary α] {e : Expr α} {p : Program α}
    (hp : Program.compile e = .ok p)
    (env : Environment α) :
    e.evaluate env = match e.variableOccurrences.find? fun v => !(env v).isSome with
      | some v => .error (.missingRange v)
      | none => e.interval env := by
  have houtcome := congrArg Prod.fst (Program.outcome_eq hp env ∅)
  rw [evaluate_of_compile hp]
  refine Eq.trans houtcome ?_
  cases e.variableOccurrences.find? fun v => !(env v).isSome with
  | some v => rfl
  | none => exact run_record_fst env e 0 ∅

end ModalBounds
