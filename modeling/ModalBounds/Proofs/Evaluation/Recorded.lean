import Mathlib
import ModalBounds.Proofs.Evaluation.Recursion

/-!
# Recorded intervals

A run that succeeds has recorded, for each node of the expression, its interval
(`getElem?_recorded`): the nodes are numbered in pre-order, so a node is recorded after those below
it and under a lesser number.
-/

namespace ModalBounds

variable {α : Type} [Elementary α] {env : Environment α}

/-- Some nodes, numbered from `first`, have been recorded, and those before are as they were. -/
def Recorded (env : Environment α) (first : Nat) (l : List (Expr α))
    (before after : NodeIntervals α) : Prop :=
  ∀ n, after[n]? = if n < first then before[n]? else (l[n - first]?).bind fun a =>
    (a.interval env).toOption

namespace Recorded

variable {first : Nat} {l l₁ l₂ : List (Expr α)} {before middle after : NodeIntervals α}

/-- Nothing has been recorded from a number on. -/
def Fresh (first : Nat) (recorded : NodeIntervals α) : Prop := ∀ n, first ≤ n → recorded[n]? = none

theorem nil (h : Fresh first before) : Recorded env first [] before before := by
  intro n
  split
  · rfl
  · exact h n (by omega)

theorem fresh (h : Recorded env first l before after) : Fresh (first + l.length) after := by
  intro n hn
  rw [h n, if_neg (by omega), List.getElem?_eq_none (by omega), Option.bind_none]

theorem append (h₁ : Recorded env first l₁ before middle)
    (h₂ : Recorded env (first + l₁.length) l₂ middle after) :
    Recorded env first (l₁ ++ l₂) before after := by
  intro n
  rw [h₂ n]
  by_cases hn : n < first + l₁.length
  · rw [if_pos hn, h₁ n]
    split
    · rfl
    · rw [List.getElem?_append_left (by omega)]
  · rw [if_neg hn, if_neg (by omega), List.getElem?_append_right (by omega), Nat.sub_sub]

theorem node {s : Symbol α} {args : List (Expr α)} {x : ModalInterval α}
    (hfresh : Fresh first before)
    (h : Recorded env (first + 1) (args.flatMap Expr.preorder) before after)
    (hx : (Expr.node s args).interval env = .ok x) :
    Recorded env first (Expr.node s args).preorder before (after.insertIfNew first x) := by
  intro n
  rw [Std.ExtTreeMap.getElem?_insertIfNew, Expr.preorder_node]
  rcases Nat.lt_trichotomy n first with hn | rfl | hn
  · rw [if_neg (by simp [Nat.ne_of_gt hn]), if_pos hn, h n, if_pos (by omega)]
  · have hnone : n ∉ after := by
      rw [Std.ExtTreeMap.mem_iff_isSome_getElem?, h n, if_pos (by omega), hfresh n le_rfl]
      exact Bool.false_ne_true
    rw [if_pos ⟨by simp, hnone⟩, if_neg (by omega), Nat.sub_self, List.getElem?_cons_zero,
      Option.bind_some, hx]
    rfl
  · rw [if_neg (by simp [Nat.ne_of_lt hn]), if_neg (by omega), h n, if_neg (by omega),
      show n - first = n - (first + 1) + 1 by omega, List.getElem?_cons_succ]

end Recorded

namespace Expr

omit [Elementary α] in
theorem run_bind_eq_ok {β γ : Type} {r : Recording α β} {f : β → Recording α γ}
    {before after : NodeIntervals α} {c : γ} (h : (r >>= f).run.run before = (.ok c, after)) :
    ∃ b middle, r.run.run before = (.ok b, middle) ∧ (f b).run.run middle = (.ok c, after) := by
  rw [ExceptT.run_bind, StateT.run_bind] at h
  rcases hr : r.run.run before with ⟨e | b, middle⟩ <;> rw [hr] at h
  · cases h
  · exact ⟨b, middle, rfl, h⟩

theorem recorded_of_record (e : Expr α) :
    ∀ {first before x after}, Recorded.Fresh first before →
      (e.record env first).run.run before = (.ok x, after) →
      Recorded env first e.preorder before after := by
  induction e with
  | node s args ih =>
    have hargs : ∀ {first before xs after}, Recorded.Fresh first before →
        (recordAll env first args).run.run before = (.ok xs, after) →
          Recorded env first (args.flatMap preorder) before after := by
      clear s
      induction args with
      | nil =>
        intro first before xs after hfresh h
        cases h
        exact .nil hfresh
      | cons a args iha =>
        intro first before xs after hfresh h
        obtain ⟨x, middle, hx, h⟩ := run_bind_eq_ok h
        obtain ⟨ys, last, hys, h⟩ := run_bind_eq_ok h
        cases h
        have hfirst := ih a (by simp) hfresh hx
        refine hfirst.append ?_
        rw [length_preorder]
        exact iha (fun b hb => ih b (List.mem_cons_of_mem _ hb))
          (length_preorder a ▸ hfirst.fresh) hys
    intro first before x after hfresh h
    have hx : (node s args).interval env = .ok x := by
      rw [← run_record_fst env (node s args) first before, h]
    obtain ⟨xs, middle, hxs, h⟩ := run_bind_eq_ok h
    obtain ⟨y, last, hy, h⟩ := run_bind_eq_ok h
    have hfresh' : Recorded.Fresh (first + 1) before := fun n hn => hfresh n (by omega)
    -- the number of the node itself is still free while its operands take those after it
    have hnode := hargs hfresh' hxs
    cases hs : s.interval env xs with
    | error e => rw [hs] at hy; cases hy
    | ok z =>
      rw [hs] at hy
      cases hy
      cases h
      exact hnode.node hfresh hx

end Expr

/-- After a run that succeeds, each node's interval is recorded under its number in pre-order. -/
theorem Program.getElem?_recorded {e : Expr α} {p : Program α} {root : ModalInterval α}
    {machine : Machine α}
    (hp : compile e = .ok p) (h : p.run env ∅ = (.ok root, machine)) (n : Nat) :
    machine.recorded[n]? = (e.preorder[n]?).bind fun a => (a.interval env).toOption := by
  have henv := isSome_of_run_eq_ok hp (congrArg Prod.fst h)
  obtain ⟨left, hrun⟩ := run_eq hp henv ∅
  rw [h, Prod.mk.injEq] at hrun
  obtain ⟨hroot, rfl⟩ := hrun
  exact e.recorded_of_record (fun n _ => Std.ExtTreeMap.getElem?_empty) (Prod.ext hroot.symm rfl) n

end ModalBounds
