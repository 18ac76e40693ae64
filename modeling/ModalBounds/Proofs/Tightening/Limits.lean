import Mathlib
import ModalBounds.Proofs.Tightening.Handed

/-!
# What limits say about the expressions that are handed over

Only the model of a bound is checked against the limits. What is handed over then is at most seven
times as deep as they allow, and at most three times as long as the square (`Limits.AllowsGrown`):
it is the model, its occurrence tree, or a slope. It is within the limits itself if the slopes are
(`limits_cover_handed`), as they are for a small enough model (`Differentiated.of_small`).
-/

namespace ModalBounds

open OccurrenceTree

namespace Limits

variable {α : Type} {limits : Limits} {e : Expr α}

/-- An expression is at most as deep and as long as a slope of one that the limits allow can be. -/
structure AllowsGrown (limits : Limits) (e : Expr α) : Prop where
  depth : e.depth ≤ 7 * limits.treeDepth
  size : e.size ≤ 3 * limits.treeLength ^ 2

end Limits

namespace OccurrenceTree

theorem depth_tree {α : Type} (e : Expr α) : (of e).tree.depth = e.depth := by
  rw [← Expr.depth_relabel (of e).owner, relabel_owner]

theorem size_tree {α : Type} (e : Expr α) : (of e).tree.size = e.size := by
  rw [← Expr.size_relabel (of e).owner, relabel_owner]

end OccurrenceTree

/-! ### Slopes -/

namespace Differentiated

variable {α : Type} [Scalar α] {model : Expr α} {D S : ℕ}

/-- Whatever the model repeats, what is handed over for its bound has grown no further than a
derivative. -/
theorem of_growth (hdepth : model.depth ≤ D) (hsize : model.size ≤ S) :
    Differentiated (fun e => e.depth ≤ 7 * D ∧ e.size ≤ 3 * S ^ 2) model := by
  have hsquare : model.size ^ 2 ≤ S ^ 2 := Nat.pow_le_pow_left hsize 2
  have hgiven : model.depth ≤ 7 * D ∧ model.size ≤ 3 * S ^ 2 := by
    have := Nat.le_self_pow (show 2 ≠ 0 by decide) model.size
    omega
  refine ⟨hgiven, by rwa [depth_tree, size_tree], fun v d _ hd => ?_, fun o d _ hd => ?_⟩
  · have hdepth' := Expr.depth_derivativeAt_le hd
    have hsize' := Expr.size_derivativeAt_le hd
    omega
  · have hdepth' := Expr.depth_derivativeAt_le hd
    have hsize' := Expr.size_derivativeAt_le hd
    rw [depth_tree] at hdepth'
    rw [size_tree] at hsize'
    omega

theorem mono {P Q : Expr α → Prop} (h : Differentiated P model) (hPQ : ∀ e, P e → Q e) :
    Differentiated Q model :=
  ⟨hPQ _ h.given, hPQ _ h.tree, fun v d hv hd => hPQ d (h.slopes v d hv hd),
    fun o d ho hd => hPQ d (h.treeSlopes o d ho hd)⟩

variable {limits : Limits}

theorem allowsGrown (h : limits.Allows model) : Differentiated limits.AllowsGrown model :=
  (of_growth (Limits.allows_iff.1 h).1 (Limits.allows_iff.1 h).2).mono fun _ h => ⟨h.1, h.2⟩

/-- The slopes of a model that is small against the limits are within them. -/
theorem of_small (hdepth : 7 * model.depth ≤ limits.treeDepth)
    (hsize : 3 * model.size ^ 2 ≤ limits.treeLength) : Differentiated limits.Allows model :=
  (of_growth le_rfl le_rfl).mono fun _ h => Limits.allows_iff.2 ⟨h.1.trans hdepth, h.2.trans hsize⟩

theorem of_occurrences_le_one (hone : ∀ v, model.occurrences v ≤ 1) (h : limits.Allows model) :
    Differentiated limits.Allows model where
  given := h
  tree := by
    rw [Limits.allows_iff, depth_tree, size_tree]
    exact Limits.allows_iff.1 h
  slopes v _ hv := by
    have := hone v
    omega
  treeSlopes o _ ho := by
    have := hone ((of model).owner o)
    omega

end Differentiated

/-! ### Bounds and violations -/

section
variable {α : Type} {limits : Limits}

/-- All that a computation hands over is within the limits, or it ends with the error that says
otherwise. -/
def Covered {β : Type} (limits : Limits) (m : Handing α β) : Prop :=
  (∀ e ∈ m.handed, limits.Allows e) ∨ ∃ err, m.result = .error err ∧ err.IsLimitExceeded

theorem not_covered {β : Type} {m : Handing α β} (hresult : m.result.isOk = true)
    (hhanded : ∃ e ∈ m.handed, ¬ limits.Allows e) : ¬ Covered limits m := by
  rintro (h | ⟨err, h, -⟩)
  · obtain ⟨e, he, hnot⟩ := hhanded
    exact hnot (h e he)
  · rw [h] at hresult
    cases hresult

/-- The derivatives on the way to the subject of a constraint, the model first. -/
def OnTheWay [Scalar α] (c : ShapeConstraint α) (model e : Expr α) : Prop :=
  ∃ x, c.variableName = some x ∧ ∃ i < c.derivations, model.nthDerivative x i = .ok e

variable [Elementary α] (estimator : Estimator) {model : Expr α} {c : ShapeConstraint α}

/-- What is computed does not depend on whether it is recorded what is handed over. -/
theorem result_modelBound (model : Expr α) (ranges : Collection α) (count : ℕ) :
    (Handing.modelBound estimator model ranges).result =
      ((estimator.modelBound model ranges).run.run count).1 :=
  (estimator.hands_modelBound (P := fun _ => True) (fun _ => .any) ranges count).result_eq

theorem result_violation (model : Expr α) (ranges : Collection α)
    (c : ShapeConstraint α) (count : ℕ) :
    (Handing.violation estimator model ranges c).result =
      ((estimator.violation model ranges c).run.run count).1 :=
  (estimator.hands_violation (P := fun _ => True) (fun _ _ _ _ _ _ => trivial) (fun _ _ _ => .any)
    ranges count).result_eq

theorem covered_modelBound
    (h : estimator.limits.Allows model → Differentiated estimator.limits.Allows model)
    (ranges : Collection α) :
    Covered estimator.limits (Handing.modelBound estimator model ranges) :=
  .inl (estimator.hands_modelBound h ranges 0).of_mem_handed

/-- If a derivative on the way exceeds the limits, it does not matter as long as the subject does
so, too. -/
theorem covered_violation
    (hway : (∀ e, OnTheWay c model e → estimator.limits.Allows e) ∨
      ∃ subject, c.subject model = .ok subject ∧ ¬ estimator.limits.Allows subject)
    (h : ∀ subject, c.subject model = .ok subject → estimator.limits.Allows subject →
      Differentiated estimator.limits.Allows subject) (ranges : Collection α) :
    Covered estimator.limits (Handing.violation estimator model ranges c) := by
  rcases hway with hway | ⟨subject, hsubject, hnot⟩
  · exact .inl (estimator.hands_violation
      (fun x hx i hi d hd => hway d ⟨x, hx, i, hi, hd⟩) h ranges 0).of_mem_handed
  · have hends := Estimator.ends_checkTree estimator.limits subject
    cases hcheck : estimator.limits.checkTree subject with
    | ok => exact absurd hcheck hnot
    | error err =>
      rw [hcheck] at hends
      refine .inr ⟨err, ?_, hends⟩
      rw [result_violation estimator model ranges c 0, Estimator.run_violation, hsubject]
      show (((estimator.modelBound subject (c.rangesOver ranges)).run.run 0).1 >>= _) = _
      rw [Estimator.run_modelBound, hcheck]
      rfl

/-- The limits hold for all that is handed over in a bound computation, or it ends with the error
that they do not, if they hold for the slopes of a model that is within them; for a violation also
the derivatives on the way to the subject have to be within them, unless the subject is not. The
slopes of a model are within the limits if it is small enough. In any case, of all that is handed
over only the derivatives on the way can be more than seven times as deep as the limit, or more than
three times as long as its square. -/
theorem limits_cover_handed (model : Expr α) (ranges : Collection α) :
    (∀ count, (Handing.modelBound estimator model ranges).result =
      ((estimator.modelBound model ranges).run.run count).1) ∧
    (∀ c count, (Handing.violation estimator model ranges c).result =
      ((estimator.violation model ranges c).run.run count).1) ∧
    ((estimator.limits.Allows model → Differentiated estimator.limits.Allows model) →
      Covered estimator.limits (Handing.modelBound estimator model ranges)) ∧
    (∀ c, ((∀ e, OnTheWay c model e → estimator.limits.Allows e) ∨
        ∃ subject, c.subject model = .ok subject ∧ ¬ estimator.limits.Allows subject) →
      (∀ subject, c.subject model = .ok subject → estimator.limits.Allows subject →
        Differentiated estimator.limits.Allows subject) →
      Covered estimator.limits (Handing.violation estimator model ranges c)) ∧
    (7 * model.depth ≤ estimator.limits.treeDepth →
      3 * model.size ^ 2 ≤ estimator.limits.treeLength →
      Covered estimator.limits (Handing.modelBound estimator model ranges)) ∧
    (∀ e ∈ (Handing.modelBound estimator model ranges).handed, estimator.limits.AllowsGrown e) ∧
    ∀ c, ∀ e ∈ (Handing.violation estimator model ranges c).handed,
      OnTheWay c model e ∨ estimator.limits.AllowsGrown e := by
  refine ⟨result_modelBound estimator model ranges, result_violation estimator model ranges,
    fun h => covered_modelBound estimator h ranges, fun c hway h =>
    covered_violation estimator hway h ranges,
    fun hdepth hsize => covered_modelBound estimator (fun _ => .of_small hdepth hsize) ranges,
    ?_, fun c => ?_⟩
  · exact (estimator.hands_modelBound Differentiated.allowsGrown ranges 0).of_mem_handed
  -- besides the derivatives on the way only a bound hands over, within the grown limits
  · refine (estimator.hands_violation
      (P := fun e => OnTheWay c model e ∨ estimator.limits.AllowsGrown e)
      (fun x hx i hi d hd => .inl ⟨x, hx, i, hi, hd⟩)
        (fun subject _ hcheck => ?_) ranges 0).of_mem_handed
    exact (Differentiated.allowsGrown hcheck).mono fun _ h => .inr h

end

section
attribute [local instance] RealFunctions.zero

/-- The model `x * x - x`. -/
def productLessSelf : Expr ℚ :=
  .binary .sub (.binary .mul (.ofVariable "x") (.ofVariable "x")) (.ofVariable "x")

/-- The default limits cover its bound over `[0, 1]`, and a violation by its slope, `x + x - 1`. -/
theorem limits_cover_productLessSelf :
    Covered {} (Handing.modelBound {} productLessSelf ((∅ : Collection ℚ).insert "x" ⟨0, 1⟩)) ∧
    Covered {} (Handing.violation {} productLessSelf ((∅ : Collection ℚ).insert "x" ⟨0, 1⟩)
      ⟨⟨-1, 1⟩, 1, some "x", 1, none⟩) := by
  have h := limits_cover_handed {} productLessSelf ((∅ : Collection ℚ).insert "x" ⟨0, 1⟩)
  refine ⟨h.2.2.1 fun _ => .of_small (by decide +kernel) (by decide +kernel),
    h.2.2.2.1 _ (.inl ?_) ?_⟩
  · rintro e ⟨x, -, i, hi, he⟩
    obtain rfl : i = 0 := by simpa using hi
    cases he
    decide +kernel
  · intro subject hsubject _
    have hslope : ((ShapeConstraint.subject
        ⟨⟨-1, 1⟩, 1, some "x", 1, none⟩ productLessSelf).toOption.map
        fun e => (e.depth, e.size)) = some (3, 5) := by decide +kernel
    rw [hsubject] at hslope
    obtain ⟨hdepth, hsize⟩ := Prod.mk.inj (Option.some.inj hslope)
    exact .of_small (by rw [hdepth]; decide) (by rw [hsize]; decide)

/-- The model `x + sin (cos y)`. -/
def selfPlusSine : Expr ℚ :=
  .binary .add (.ofVariable "x") (.unary .sin (.unary .cos (.ofVariable "y")))

/-- The model `x * x * x`. -/
def tripleProduct : Expr ℚ := .node .mul [.ofVariable "x", .ofVariable "x", .ofVariable "x"]

/-- A model of depth four is differentiated although two are allowed, and a model of length four has
a slope of length ten. -/
theorem not_covered_selfPlusSine :
    ¬ Covered { treeDepth := 2 } (Handing.violation { limits := { treeDepth := 2 } } selfPlusSine
      (((∅ : Collection ℚ).insert "x" ⟨0, 1⟩).insert "y" ⟨0, 1⟩) ⟨⟨0, 2⟩, 1, some "x", 1, none⟩) ∧
    ¬ Covered { treeLength := 4 }
      (Handing.modelBound { limits := { treeLength := 4 } } tripleProduct
      ((∅ : Collection ℚ).insert "x" ⟨0, 1⟩)) := by
  refine ⟨not_covered ?_ ?_, not_covered ?_ ?_⟩
  · decide +kernel
  · decide +kernel
  · decide +kernel
  · decide +kernel

end

end ModalBounds
