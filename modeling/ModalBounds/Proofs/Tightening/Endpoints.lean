import Mathlib
import ModalBounds.Proofs.Tightening.Ranges

/-!
# Exact bounds of monotonic models

If a tightening step reports a polynomial in one variable as monotonic, its bound has the values at
the ends of the range for bounds: each occurrence goes in a known direction, and those against the
whole have their bounds exchanged, so every node of the occurrence tree takes its values at the two
corners (`Term.range_exchange_eq`).
-/

namespace ModalBounds

open Set ModalInterval OccurrenceTree

section
variable [RealFunctions ℚ] {model : Expr ℚ} {ranges : Ranges ℚ} {seeded state : WorkingRanges ℚ}

/-- Where all occurrences are of one variable, the bound has the values at the two ends of its
range. -/
theorem bound_eq_ends (hs : Seeded model ranges seeded) {x : String}
    (hx : ∀ v ∈ model.variableOccurrences, v = x)
    (hstep : seeded.dualize model (of model) x = .ok (state, true))
    (hocc : 2 ≤ model.occurrences x) :
    ∃ (bound : ModalInterval ℚ) (overall : Direction), outerApproximation model ranges = .ok bound ∧
      overall.Along (fun ρ => model.value ρ) (seeded.real model) x ∧
      bound.toReal.lower = model.value (fun _ => overall.bottom (seeded.real model x)) ∧
      bound.toReal.upper = model.value fun _ => overall.top (seeded.real model x) := by
  obtain ⟨overall, dir, hoverall, hdir, hexchange, -⟩ :=
    (WorkingRanges.dualize_cases hstep).resolve_left
    fun h => absurd (h.2 rfl) (by omega)
  -- the one step is the whole run
  have hnames : (of model).variableNames = [x] := by
    rw [variableNames_of, Expr.variableNames]
    cases hl : model.variableOccurrences with
    | nil => simp [Expr.occurrences, hl] at hocc
    | cons v vs =>
      rw [hl, List.forall_mem_cons] at hx
      rw [List.eraseDups_cons, hx.1, List.filter_eq_nil_iff.2 fun w hw => by simp [hx.2 w hw],
        List.eraseDups_nil]
  have ht : tighten .outer model (of model) seeded (of model).variableNames = .ok state := by
    rw [hnames, Tightened.tighten_cons]
    exact bind_eq_ok.2 ⟨_, hstep, rfl⟩
  have h : Tightened seeded state := (Tightened.refl seeded).tighten ht
  have hpoly := isPolynomial_tree hs.isPolynomial
  have howner {o : String} (ho : o ∈ (of model).tree.variableOccurrences) : (of model).owner o =
      x :=
    hx _ (owner_mem model ho)
  have hmem {o : String} (ho : o ∈ (of model).tree.variableOccurrences) :
      o ∈ (of model).occurrenceNames x :=
    (mem_occurrenceNames model).2 ⟨ho, howner ho⟩
  have hvalue : (of model).tree.term.value = fun ρ => (of model).tree.value ρ :=
    funext hpoly.value_term
  have hnodup : (of model).tree.term.names.Nodup :=
    hpoly.names_term ▸ nodup_variableOccurrences model
  obtain ⟨bound, hbound, hreal⟩ := Tightened.exists_outerApproximation hs ht
  -- the step has exchanged just the occurrences along which the tree goes against the model
  have hrange : (of model).tree.term.range state.environment.real = (of model).tree.term.range
      (Term.exchange {o | o ∈ (of model).tree.term.names ∧ dir o ≠ overall}
        (seeded.real model)) := by
    refine Term.range_congr _ fun o ho => ?_
    have ho' : o ∈ (of model).tree.variableOccurrences := hpoly.names_term ▸ ho
    have hex := hexchange o (hmem ho')
    rw [Term.exchange]
    split_ifs at hex with hd
    · rw [if_neg fun h => h.2 hd, h.environment_real_of_eq ho' hex]
    · rw [if_pos ⟨ho, hd⟩, Tightened.environment_real_of_dual hs ho' hex]
  obtain ⟨hlower, hupper⟩ := Term.range_exchange_eq hs.real_proper hnodup overall fun o ho => by
    rw [hvalue]
    exact hs.along_tree_of_shows (hdir o (hmem (hpoly.names_term ▸ ho)))
  -- all occurrences at one end of their ranges is the variable at that end
  have hend (f : ModalInterval ℝ → ℝ) :
      (of model).tree.term.value (fun o => f (seeded.real model o)) =
      model.value fun _ => f (seeded.real model x) := by
    rw [← value_tree_owner, hpoly.value_term]
    exact Expr.value_congr fun o ho => by rw [hs.real_occurrence ho, howner ho]
  refine ⟨bound, overall, hbound, hs.along_of_shows hoverall, ?_, ?_⟩
  · rw [hreal, hrange, hlower, hend]
  · rw [hreal, hrange, hupper, hend]

/-- Whether a tightening step over the given ranges reports the model as monotonic in a variable. -/
def reportedMonotonic (model : Expr ℚ) (ranges : Ranges ℚ) (x : String) :
    Except (ModelError ℚ) Bool := do
  let seeded ← WorkingRanges.seed (of model) ranges
  let step ← seeded.dualize model (of model) x
  return step.2

/-- Exact bounds of monotonic models: if a polynomial in one variable, which occurs at least twice,
is reported monotonic over a proper range, its bound is the proper interval of its values at the
ends of the range, and it takes no value outside. -/
theorem outerApproximation_eq_endpoints {x : String} {lo hi : ℚ} (hmodel : model.IsPolynomial {x})
    (hocc : 2 ≤ model.occurrences x) (hrange : ranges[x]? = some ⟨lo, hi⟩) (hle : lo ≤ hi)
    (hmonotonic : reportedMonotonic model ranges x = .ok true) :
    ∃ bound, outerApproximation model ranges = .ok bound ∧ bound.isProper = true ∧
      (bound.lower : ℝ) = min (model.value fun _ => lo) (model.value fun _ => hi) ∧
      (bound.upper : ℝ) = max (model.value fun _ => lo) (model.value fun _ => hi) ∧
      ∀ t ∈ Icc (lo : ℝ) hi, model.value (fun _ => t) ∈ Icc (bound.lower : ℝ) bound.upper := by
  obtain ⟨seeded, hseed, hstep⟩ := bind_eq_ok.1 hmonotonic
  obtain ⟨⟨state, monotonic⟩, hstep, hreported⟩ := bind_eq_ok.1 hstep
  obtain rfl : monotonic = true := pure_eq_ok.1 hreported
  have hx : ∀ v ∈ model.variableOccurrences, v = x := fun v hv => hmodel.mem_of_occurs hv
  have hmem : x ∈ model.variableOccurrences := List.count_pos_iff.1 (by
    have : 2 ≤ model.variableOccurrences.count x := hocc
    omega)
  have hs : Seeded model ranges seeded := by
    refine ⟨hmodel.of_forall_mem fun _ hv => hv, fun v hv => ?_, hseed⟩
    rw [hx v hv]
    exact ⟨_, hrange, hle⟩
  have hreal : seeded.real model x = ⟨lo, hi⟩ := by
    rw [hs.real_variable hmem, hrange]
    rfl
  obtain ⟨bound, overall, hbound, halong, hlower, hupper⟩ := bound_eq_ends hs hx hstep hocc
  rw [hreal] at hlower hupper
  have hpoint : (fun v => (seeded.real model v).lower) ∈ box (seeded.real model) :=
    mem_box.2 fun v => left_mem_Icc.2 (hs.real_proper v)
  -- there is no other variable, so monotonic along `x` is monotonic in the value of `x`
  have hon : overall.On (fun t => model.value fun _ => t) (Icc (lo : ℝ) hi) := by
    have h := halong _ hpoint
    have hconst (t : ℝ) : model.value (Function.update (fun v => (seeded.real model v).lower) x t) =
        model.value fun _ => t :=
      Expr.value_congr fun v hv => by rw [hx v hv, Function.update_self]
    rw [hreal] at h
    simpa only [hconst] using h
  have hlohi : (lo : ℝ) ≤ hi := Rat.cast_le.2 hle
  have hbounds : (bound.lower : ℝ) = min (model.value fun _ => lo) (model.value fun _ => hi) ∧
      (bound.upper : ℝ) = max (model.value fun _ => lo) (model.value fun _ => hi) ∧
      ∀ t ∈ Icc (lo : ℝ) hi, model.value (fun _ => t) ∈ Icc (bound.lower : ℝ) bound.upper := by
    cases overall with
    | up =>
      have hends := hon (left_mem_Icc.2 hlohi) (right_mem_Icc.2 hlohi) hlohi
      refine ⟨hlower.trans (min_eq_left hends).symm, hupper.trans (max_eq_right hends).symm,
        fun t ht => ?_⟩
      exact ⟨hlower.le.trans (hon (left_mem_Icc.2 hlohi) ht ht.1),
        (hon ht (right_mem_Icc.2 hlohi) ht.2).trans hupper.ge⟩
    | down =>
      have hends := hon (left_mem_Icc.2 hlohi) (right_mem_Icc.2 hlohi) hlohi
      refine ⟨hlower.trans (min_eq_right hends).symm, hupper.trans (max_eq_left hends).symm,
        fun t ht => ?_⟩
      exact ⟨hlower.le.trans (hon ht (right_mem_Icc.2 hlohi) ht.2),
        (hon (left_mem_Icc.2 hlohi) ht ht.1).trans hupper.ge⟩
  refine ⟨bound, hbound, decide_eq_true (Rat.cast_le (K := ℝ).1 ?_), hbounds⟩
  rw [hbounds.1, hbounds.2.1]
  exact min_le_max

end

section
attribute [local instance] RealFunctions.zero

/-- The model `x * x - x`. -/
def squareLessSelf : Expr ℚ :=
  .node .sub [.binary .mul (.ofVariable "x") (.ofVariable "x"), .ofVariable "x"]

/-- Over `[1, 2]` the third occurrence of `x * x - x` goes against the whole, and the bound is
`[0, 2]`. -/
theorem outerApproximation_squareLessSelf :
    ∃ bound, outerApproximation squareLessSelf ((∅ : Ranges ℚ).insert "x" ⟨1, 2⟩) = .ok bound ∧
      bound.isProper = true ∧ (bound.lower : ℝ) = 0 ∧ (bound.upper : ℝ) = 2 ∧
      ∀ t ∈ Icc (1 : ℝ) 2,
        squareLessSelf.value (fun _ => t) ∈ Icc (bound.lower : ℝ) bound.upper := by
  have hvar : (Expr.ofVariable (α := ℚ) "x").IsPolynomial {"x"} := .var rfl
  have hmodel : squareLessSelf.IsPolynomial {"x"} :=
    .sub (by simp) (by simpa using ⟨.mul (by simp) (by simpa using hvar), hvar⟩)
  have hrange : ((∅ : Ranges ℚ).insert "x" ⟨1, 2⟩)["x"]? = some ⟨1, 2⟩ := by simp
  have hmonotonic := toOption_eq_some.1 (show (reportedMonotonic squareLessSelf
    ((∅ : Ranges ℚ).insert "x" ⟨1, 2⟩) "x").toOption = some true by decide +kernel)
  have hends (t : ℝ) : squareLessSelf.value (fun _ => t) = t * t - t := by
    simp [squareLessSelf, Expr.value, Expr.values, Symbol.value, Expr.binary, Expr.ofVariable,
      Expr.weighted]
  obtain ⟨bound, hbound, hproper, hlower, hupper, hmem⟩ :=
    outerApproximation_eq_endpoints hmodel (by decide +kernel) hrange (by norm_num) hmonotonic
  refine ⟨bound, hbound, hproper, ?_, ?_, by simpa using hmem⟩
  · rw [hlower, hends, hends]
    norm_num
  · rw [hupper, hends, hends]
    norm_num

/-- The model `x + x + 1 ^ 2147483648`, whose exponent is one too great. -/
def exponentTooGreat : Expr ℚ :=
  .node .add [.ofVariable "x", .ofVariable "x", .binary .power (.constant 1) (.constant 2147483648)]

/-- An exponent of more than 32 bits leaves a monotonic model without a bound. -/
theorem outerApproximation_exponentTooGreat :
    reportedMonotonic exponentTooGreat ((∅ : Ranges ℚ).insert "x" ⟨0, 1⟩) "x" = .ok true ∧
      ∀ bound, outerApproximation exponentTooGreat ((∅ : Ranges ℚ).insert "x" ⟨0, 1⟩) ≠
        .ok bound := by
  refine ⟨toOption_eq_some.1 (by decide +kernel), fun bound h => ?_⟩
  have hfails : (outerApproximation exponentTooGreat ((∅ : Ranges ℚ).insert "x" ⟨0, 1⟩)).isOk =
      false := by
    decide +kernel
  rw [h] at hfails
  cases hfails

end

end ModalBounds
