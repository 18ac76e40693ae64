import Mathlib
import ModalBounds.Proofs.Evaluation.Outcome
import ModalBounds.Proofs.Tightening.Failures

/-!
# Seeding

Before any tightening step the occurrence tree over the seeded ranges evaluates to what the model
evaluates to over the given ones, with the same intervals recorded or the same error
(`seeding_keeps_outcome`). A program looks for missing ranges in pre-order, seeding looks for them
in the order in which variables first occur; both find the same one, since a variable has no
operands.
-/

namespace ModalBounds

open OccurrenceTree

/-! ### Names that stand for others -/

namespace Expr

variable {α : Type} [Elementary α]

/-- Names that stand for others can be exchanged for these, if they have ranges. -/
theorem record_relabel {f : String → String} {env env' : Environment α} {e : Expr α}
    (h : ∀ v ∈ e.variableOccurrences, env' v = env (f v) ∧ (env' v).isSome) :
    ∀ first, (e.relabel f).record env first = e.record env' first := by
  induction e with
  | node s args ih =>
    have hargs : ∀ first,
        recordAll env first (args.map (relabel f)) = recordAll env' first args := by
      have hall := fun a ha => ih a ha fun v hv => h v (mem_variableOccurrences_of_mem ha hv)
      clear h ih
      induction args with
      | nil => exact fun _ => rfl
      | cons a args iha =>
        intro first
        rw [List.forall_mem_cons] at hall
        rw [List.map_cons, recordAll, recordAll, hall.1, size_relabel, iha hall.2]
    intro first
    rw [relabel_node, record, record, hargs]
    refine bind_congr fun xs => ?_
    have hsymbol : (s.relabel f).interval env xs = s.interval env' xs := by
      cases s with
      | var name weight =>
        obtain ⟨heq, hsome⟩ := h name (by simp [variableOccurrences_node, variableName?])
        obtain ⟨x, hx⟩ := Option.isSome_iff_exists.1 hsome
        simp only [Symbol.relabel, Symbol.interval, ← heq, hx]
      | _ => exact Symbol.interval_congr xs (by rintro _ _ ⟨⟩)
    rw [hsymbol]

end Expr

/-! ### What seeding comes to -/

section
variable {α : Type} {model : Expr α} {ranges : Ranges α} {state : WorkingRanges α}

theorem find?_eraseDups (l : List String) (p : String → Bool) :
    l.eraseDups.find? p = l.find? p := by
  induction l using List.reverseRecOn with
  | nil => rfl
  | append_singleton l a ih =>
    rw [List.eraseDups_append, List.find?_append, List.find?_append, ih]
    by_cases ha : a ∈ l
    · -- a repeated name is not found in the list before only if it is not looked for
      cases hfind : l.find? p with
      | some b => rfl
      | none => simpa [List.removeAll, ha] using List.find?_eq_none.1 hfind a ha
    · simp [List.removeAll, ha, List.eraseDups_cons]

namespace OccurrenceTree

theorem seedAll_eq_error {v : String} {l : List (String × List String)}
    (h : (l.map (·.1)).find? (fun v => !(ranges[v]?).isSome) = some v) (seeded : Ranges α) :
    seedAll ranges seeded l = .error (.missingRange v) := by
  induction l generalizing seeded with
  | nil => cases h
  | cons p l ih =>
    rw [List.map_cons, List.find?_cons] at h
    rw [seedAll]
    cases hp : ranges[p.1]? with
    | none =>
      rw [hp] at h
      cases h
      rfl
    | some x =>
      rw [hp] at h
      exact ih h _

end OccurrenceTree

namespace WorkingRanges

theorem seed_eq_error {v : String}
    (h : model.variableOccurrences.find? (fun v => !(ranges[v]?).isSome) = some v) :
    seed (of model) ranges = .error (.missingRange v) := by
  have hkeys : ((of model).names.map (·.1)).find? (fun v => !(ranges[v]?).isSome) = some v := by
    rw [← h, ← find?_eraseDups model.variableOccurrences]
    exact congrArg _ (variableNames_of model)
  rw [seed, seedRanges, seedAll_eq_error hkeys]
  rfl

theorem isSome_of_seed (h : seed (of model) ranges = .ok state) :
    ∀ v ∈ model.variableOccurrences, (ranges[v]?).isSome := by
  apply isSome_of_find?_eq_none
  cases hfind : model.variableOccurrences.find? fun v => !(ranges[v]?).isSome with
  | none => rfl
  | some v =>
    rw [seed_eq_error hfind] at h
    cases h

theorem environment_of_seed (h : seed (of model) ranges = .ok state) {o : String}
    (ho : o ∈ (of model).tree.variableOccurrences) :
    state.environment o = ranges.environment ((of model).owner o) ∧
    (state.environment o).isSome := by
  have hreached := Reached.seed (isSome_of_seed h) h
  obtain ⟨x, hx⟩ := Option.isSome_iff_exists.1 (isSome_of_seed h _ (owner_mem model ho))
  refine ⟨?_, hreached.isSome o (.inr ho)⟩
  rw [Reached.environment_eq, seed_occurrences h, if_pos ho, hx, Option.some_or]
  exact hx.symm

end WorkingRanges

end

/-! ### The occurrence tree over the seeded ranges -/

section
variable {α : Type} [Elementary α] {model : Expr α} {p : Program α}

/-- What the occurrence tree of a model comes to over the ranges that its occurrences are seeded
with. -/
def seededOutcome (model : Expr α) (ranges : Ranges α) (recorded : NodeIntervals α) :
    Except (ModelError α) (ModalInterval α) × NodeIntervals α :=
  let result := do
    let state ← WorkingRanges.seed (of model) ranges
    let p ← Program.compile (of model).tree
    return p.outcome state.environment recorded
  match result with
  | .error err => (.error err, recorded)
  | .ok outcome => outcome

theorem seededOutcome_eq (hp : Program.compile model = .ok p) (ranges : Ranges α)
    (recorded : NodeIntervals α) :
    seededOutcome model ranges recorded = p.outcome ranges.environment recorded := by
  rw [Program.outcome_eq hp]
  cases hfind : model.variableOccurrences.find? fun v => !(ranges.environment v).isSome with
  | some v =>
    rw [seededOutcome, WorkingRanges.seed_eq_error hfind]
    rfl
  | none =>
    obtain ⟨state, hstate⟩ := WorkingRanges.seed_isOk (isSome_of_find?_eq_none hfind)
    obtain ⟨q, hq⟩ := (evaluable_tree_of_compile hp).exists_compile
    have hown := fun o ho => WorkingRanges.environment_of_seed hstate (o := o) ho
    have htree : (of model).tree.variableOccurrences.find? (fun o =>
        !(state.environment o).isSome) = none :=
      List.find?_eq_none.2 fun o ho => by simp [(hown o ho).2]
    have hrecord := Expr.record_relabel hown 0
    rw [relabel_owner] at hrecord
    have hresult : seededOutcome model ranges recorded = q.outcome state.environment recorded := by
      rw [seededOutcome, hstate, hq]
      rfl
    rw [hresult, Program.outcome_eq hq, htree, hrecord]

theorem approximate_of_occurrences_le_one (h : ∀ v, model.occurrences v ≤ 1)
    (approximation : Approximation)
    (ranges : Ranges α) :
    approximate approximation model ranges = (seededOutcome model ranges ∅).1 := by
  rw [approximate_eq, seededOutcome]
  cases WorkingRanges.seed (of model) ranges with
  | error err => rfl
  | ok state =>
    show (tighten approximation model (of model) state (of model).variableNames >>= _) = _
    rw [tighten_of_occurrences_le_one fun v _ => h v]
    show (Program.compile (of model).tree >>= _) = _
    cases Program.compile (of model).tree <;> rfl

/-- The occurrence tree over the seeded ranges evaluates as the model does over the given ones: to
the same interval with the same intervals recorded, or to the same error. So the bounds of a model
in which no variable is repeated are what it evaluates to. -/
theorem seeding_keeps_outcome (hp : Program.compile model = .ok p) (ranges : Ranges α) :
    (∀ recorded, seededOutcome model ranges recorded = p.outcome ranges.environment recorded) ∧
    ((∀ v, model.occurrences v ≤ 1) →
      outerApproximation model ranges = p.evaluate ranges.environment ∧
      innerApproximation model ranges = p.evaluate ranges.environment) := by
  refine ⟨seededOutcome_eq hp ranges, fun h => ?_⟩
  have hbound (approximation : Approximation) :
      approximate approximation model ranges = p.evaluate ranges.environment := by
    rw [approximate_of_occurrences_le_one h, seededOutcome_eq hp]
    rfl
  exact ⟨hbound .outer, hbound .inner⟩

end

section
attribute [local instance] RealFunctions.zero

/-- The model `x ^ 2 - x_1`, in which `x_1` is not an occurrence of `x`. -/
def squareLessOther : Expr ℚ :=
  .binary .sub (.binary .power (.ofVariable "x") (.constant 2)) (.ofVariable "x_1")

/-- Its outer bound over `[1, 3]` and `[0, 1]` is `[0, 9]`; without a range for `x_1`, that is the
error. -/
theorem seeding_squareLessOther : ∃ p bound, Program.compile squareLessOther = .ok p ∧
    seededOutcome squareLessOther (((∅ : Ranges ℚ).insert "x" ⟨1, 3⟩).insert "x_1" ⟨0, 1⟩) ∅ =
      p.outcome (Ranges.environment (((∅ : Ranges ℚ).insert "x" ⟨1, 3⟩).insert "x_1" ⟨0, 1⟩)) ∅ ∧
    outerApproximation squareLessOther (((∅ : Ranges ℚ).insert "x" ⟨1, 3⟩).insert "x_1" ⟨0, 1⟩) =
      .ok bound ∧
    bound.lower = 0 ∧ bound.upper = 9 ∧
    innerApproximation squareLessOther ((∅ : Ranges ℚ).insert "x" ⟨1, 3⟩) =
      .error (.missingRange "x_1") := by
  have hvars : squareLessOther.variableOccurrences = ["x", "x_1"] := by decide +kernel
  have hone : ∀ v, squareLessOther.occurrences v ≤ 1 := fun v => by
    rw [Expr.occurrences, hvars]
    exact List.nodup_iff_count_le_one.1 (by decide) v
  obtain ⟨p, bound, hp, hbound, hends⟩ : ∃ p bound, Program.compile squareLessOther = .ok p ∧
      p.evaluate (Ranges.environment (((∅ : Ranges ℚ).insert "x" ⟨1, 3⟩).insert "x_1" ⟨0, 1⟩)) =
        .ok bound ∧
      bound.lower = 0 ∧ bound.upper = 9 := by
    refine ⟨_, _, rfl, rfl, ?_⟩
    decide +kernel
  obtain ⟨houtcome, hbounds⟩ :=
    seeding_keeps_outcome hp (((∅ : Ranges ℚ).insert "x" ⟨1, 3⟩).insert "x_1" ⟨0, 1⟩)
  refine ⟨p, bound, hp, houtcome ∅, (hbounds hone).1.trans hbound, hends.1, hends.2, ?_⟩
  rw [((seeding_keeps_outcome hp ((∅ : Ranges ℚ).insert "x" ⟨1, 3⟩)).2 hone).2]
  cases hp
  rfl

end

end ModalBounds
