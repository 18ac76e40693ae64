import Mathlib
import ModalBounds.Proofs.Expr.Occurrence
import ModalBounds.Proofs.Failure
import ModalBounds.Tightening.Estimator

/-!
# Bound computations in any monad

A relation between the computations in some monad and the plain ones, which sequences, failures and
notices keep (`Follows`), holds of every bound computation: one lemma per step of it. Notices are
only given of expressions with some property, which is asked for where an expression is handed over
(`Differentiated` for the bound of a model). So the count of `Counted` does not change what is
computed.
-/

namespace ModalBounds

open OccurrenceTree

/-! ### The program that nobody watches -/

theorem ShapeConstraint.subject_eq {α : Type} [Scalar α] {c : ShapeConstraint α} {model : Expr α} :
    c.subject model = match c.variableName with
      | none => .ok model
      | some x => model.nthDerivative x c.derivations := rfl

namespace WorkingRanges

variable {α : Type} [Elementary α] {state : WorkingRanges α} {model e : Expr α}
  {k : OccurrenceTree α}
variable {v : String}

theorem evaluate_eq : state.evaluate e = (do
    let p ← Program.compile e
    p.evaluate state.environment) := rfl

theorem slope_eq : state.slope e v = (do
    let d ← e.derivative v
    state.evaluate d) := rfl

theorem directions?_cons {names : List String} : state.directions? e (v :: names) = (do
    let slope ← state.slope e v
    match direction? slope with
    | none => return none
    | some d =>
      let ds ← state.directions? e names
      return ds.map (d :: ·)) := rfl

theorem dualize_eq : state.dualize model k v =
    if (k.occurrenceNames v).length ≤ 1 then .ok (state, true) else do
      let slope ← state.slope model v
      match direction? slope with
      | none => return (state, false)
      | some overall =>
        match ← state.directions? k.tree (k.occurrenceNames v) with
        | none => return (state, false)
        | some ds =>
          return (dualizeAgainst overall state ((k.occurrenceNames v).zip ds), true) := rfl

end WorkingRanges

section
variable {α : Type} [Elementary α] {state : WorkingRanges α} {model : Expr α} {ranges : Ranges α}
variable {approximation : Approximation} {v : String} {vs : List String}

theorem tighten_cons {k : OccurrenceTree α} : tighten approximation model k state (v :: vs) = (do
    let r ← state.dualize model k v
    tighten approximation model k
      (if !r.2 && approximation == .inner then r.1.collapseToMid k v else r.1) vs) := rfl

theorem approximateNodes_eq : approximateNodes approximation model ranges = (do
    let seeded ← WorkingRanges.seed (of model) ranges
    let state ← tighten approximation model (of model) seeded (of model).variableNames
    let p ← Program.compile (of model).tree
    let bound ← (p.run state.environment ∅).1
    return (bound, (p.run state.environment ∅).2.recorded)) := rfl

theorem approximate_eq_map : approximate approximation model ranges =
    (·.1) <$> approximateNodes approximation model ranges := by
  show (approximateNodes approximation model ranges >>= fun r => pure r.1) = _
  cases approximateNodes approximation model ranges <;> rfl

theorem approximate_eq : approximate approximation model ranges = (do
    let seeded ← WorkingRanges.seed (of model) ranges
    let state ← tighten approximation model (of model) seeded (of model).variableNames
    state.evaluate (of model).tree) := by
  rw [approximate_eq_map, approximateNodes_eq, map_bind]
  refine bind_congr fun seeded => ?_
  rw [map_bind]
  refine bind_congr fun state => ?_
  rw [map_bind]
  refine bind_congr fun p => ?_
  show _ <$> ((p.run state.environment ∅).1 >>= _) = (p.run state.environment ∅).1
  cases (p.run state.environment ∅).1 <;> rfl

end

/-! ### Computations that follow the plain ones -/

section
variable {α : Type} {m : Type → Type} [Monad m] [MonadBound α m]

/-- A relation between the computations of a monad and the plain ones that sequences, failures and
notices keep, where what is handed over has the property `P`. -/
structure Follows (P : Expr α → Prop) (rel : (β : Type) → m β → Except (ModelError α) β → Prop) :
    Prop where
  pure {β : Type} (b : β) : rel β (Pure.pure b) (.ok b)
  ofExcept {β : Type} (x : Except (ModelError α) β) : rel β (MonadBound.ofExcept x) x
  hand {e : Expr α} (he : P e) : rel Unit (MonadBound.hand e) (.ok ())
  bind {β γ : Type} {x : m β} {y : Except (ModelError α) β} {f : β → m γ}
    {g : β → Except (ModelError α) γ}
    (h : rel β x y) (hf : ∀ b, y = .ok b → rel γ (f b) (g b)) : rel γ (x >>= f) (y >>= g)

namespace Follows

variable {P : Expr α → Prop} {rel : (β : Type) → m β → Except (ModelError α) β → Prop}
  (h : Follows P rel)
variable {e : Expr α} {x : String}

include h

theorem derivative [Scalar α] (he : P e) : rel _ (e.derivativeM x) (e.derivative x) :=
  h.bind (h.hand he) fun _ _ => h.ofExcept _

/-- What is differentiated is handed over; the last derivative is not differentiated. -/
theorem nthDerivative [Scalar α] {order : ℕ}
    (hway : ∀ i < order, ∀ d, e.nthDerivative x i = .ok d → P d) :
    rel _ (e.nthDerivativeM (Expr.derivativeM x) order) (e.nthDerivative x order) := by
  induction order generalizing e with
  | zero => exact h.pure e
  | succ order ih =>
    refine h.bind (h.derivative (hway 0 (Nat.succ_pos order) e rfl)) fun d hd =>
      ih fun i hi d' hd' => ?_
    exact hway (i + 1) (Nat.succ_lt_succ hi) d' (bind_eq_ok.2 ⟨d, hd, hd'⟩)

theorem subject [Scalar α] {c : ShapeConstraint α} {model : Expr α}
    (hway : ∀ x, c.variableName = some x →
    ∀ i < c.derivations, ∀ d, model.nthDerivative x i = .ok d → P d) :
    rel _ (c.subjectM model) (c.subject model) := by
  rw [ShapeConstraint.subject, ShapeConstraint.subjectM, ShapeConstraint.subjectM]
  cases hx : c.variableName with
  | none => exact h.pure model
  | some x => exact h.nthDerivative (hway x hx)

theorem compile (he : P e) : rel _ e.compileM (Program.compile e) :=
  h.bind (h.hand he) fun _ _ => h.ofExcept _

variable [Elementary α] {state : WorkingRanges α}

theorem evaluate (he : P e) : rel _ (state.evaluateM e) (state.evaluate e) :=
  h.bind (h.compile he) fun _ _ => h.ofExcept _

theorem slope (he : P e) (hslope : ∀ d, e.derivative x = .ok d → P d) :
    rel _ (state.slopeM e x) (state.slope e x) :=
  h.bind (h.derivative he) fun d hd => h.evaluate (hslope d hd)

theorem directions? {names : List String} (he : P e)
    (hslopes : ∀ o ∈ names, ∀ d, e.derivative o = .ok d → P d) :
    rel _ (state.directionsM? e names) (state.directions? e names) := by
  induction names with
  | nil => exact h.pure _
  | cons o names ih =>
    rw [List.forall_mem_cons] at hslopes
    refine h.bind (h.slope he hslopes.1) fun y _ => ?_
    cases direction? y with
    | none => exact h.pure none
    | some d => exact h.bind (ih hslopes.2) fun ds _ => h.pure (ds.map (d :: ·))

end Follows

end

/-- What the bound of a model hands over: the model, its occurrence tree, and slopes of both along
what is repeated. -/
structure Differentiated {α : Type} [Scalar α] (P : Expr α → Prop) (model : Expr α) : Prop where
  given : P model
  tree : P (of model).tree
  slopes : ∀ v d, 2 ≤ model.occurrences v → model.derivative v = .ok d → P d
  treeSlopes : ∀ o d,
    2 ≤ model.occurrences ((of model).owner o) → (of model).tree.derivative o = .ok d → P d

namespace Differentiated

theorem any {α : Type} [Scalar α] {model : Expr α} : Differentiated (fun _ => True) model :=
  ⟨trivial, trivial, fun _ _ _ _ => trivial, fun _ _ _ _ => trivial⟩

variable {α : Type} [Elementary α] {m : Type → Type} [Monad m] [MonadBound α m] {P : Expr α → Prop}
variable {rel : (β : Type) → m β → Except (ModelError α) β → Prop} {model : Expr α}
  {state : WorkingRanges α}
variable (h : Differentiated P model) (hrel : Follows P rel)

include h hrel

theorem follows_dualize (v : String) :
    rel _ (state.dualizeM model (of model) v) (state.dualize model (of model) v) := by
  rw [WorkingRanges.dualize_eq, WorkingRanges.dualizeM]
  split
  · exact hrel.pure _
  · rename_i hlen
    have hv : 2 ≤ model.occurrences v := by
      rw [length_occurrenceNames_of] at hlen
      omega
    have htree : ∀ o ∈ (of model).occurrenceNames v, ∀ d,
        (of model).tree.derivative o = .ok d → P d :=
      fun o ho d => h.treeSlopes o d (((mem_occurrenceNames model).1 ho).2.symm ▸ hv)
    refine hrel.bind (hrel.slope h.given fun d => h.slopes v d hv) fun y _ => ?_
    cases direction? y with
    | none => exact hrel.pure _
    | some overall =>
      refine hrel.bind (hrel.directions? h.tree htree) fun ds _ => ?_
      cases ds <;> exact hrel.pure _

theorem follows_tighten (approximation : Approximation) (vs : List String) :
    rel _ (tightenM approximation model (of model) state vs)
      (tighten approximation model (of model) state vs) := by
  induction vs generalizing state with
  | nil => exact hrel.pure state
  | cons v vs ih => exact hrel.bind (h.follows_dualize hrel v) fun _ _ => ih

theorem follows_approximateNodes (approximation : Approximation) (ranges : Ranges α) :
    rel _ (approximateNodesM approximation model ranges)
      (approximateNodes approximation model ranges) := by
  refine hrel.bind (x := model.occurrenceTreeM) (y := .ok (of model)) ?_ fun k hk => ?_
  · exact hrel.bind (hrel.hand h.given) fun _ _ => hrel.pure _
  · obtain rfl := Except.ok.inj hk
    refine hrel.bind (hrel.ofExcept _) fun seeded _ =>
      hrel.bind (h.follows_tighten hrel _ _) fun state _ => ?_
    exact hrel.bind (hrel.compile h.tree) fun p _ =>
      hrel.bind (hrel.ofExcept _) fun bound _ => hrel.pure _

theorem follows_approximate (approximation : Approximation) (ranges : Ranges α) :
    rel _ (approximateM approximation model ranges) (approximate approximation model ranges) :=
  hrel.bind (h.follows_approximateNodes hrel approximation ranges) fun r _ => hrel.pure r.1

end Differentiated

/-! ### Counting -/

/-- Apart from the count, a computation comes to `y`. -/
def Counted.Uncounted {α : Type} (β : Type) (x : Counted α β) (y : Except (ModelError α) β) :
    Prop :=
  ∀ count, x.run.run count = (y, count)

theorem Counted.follows {α : Type} : Follows (fun _ => True) (Counted.Uncounted (α := α)) where
  pure _ _ := rfl
  ofExcept x _ := by cases x <;> rfl
  hand _ _ := rfl
  bind {_ _ x y f g} h hf count := by
    rw [ExceptT.run_bind, StateT.run_bind, h count]
    cases y with
    | error err => rfl
    | ok b => exact hf b rfl count

namespace Estimator

variable {α : Type} [Elementary α] (estimator : Estimator) {model : Expr α}

omit [Elementary α] in
/-- What follows the check of the limits is counted once and runs only behind it. -/
theorem run_enter_bind {β : Type} {f : Counted α β} {y : Except (ModelError α) β}
    (h : Counted.Uncounted β f y) (model : Expr α) (count : ℕ) :
    (estimator.enterM model >>= fun _ => f).run.run count =
      match estimator.limits.checkTree model with
      | .error err => (.error err, count)
      | .ok () => (y, count + 1) := by
  rw [ExceptT.run_bind, StateT.run_bind]
  have henter : (estimator.enterM model : Counted α Unit).run.run count =
      match estimator.limits.checkTree model with
      | .error err => (.error err, count)
      | .ok () => (.ok (), count + 1) := by
    show (MonadBound.ofExcept _ >>= fun _ => MonadBound.count : Counted α Unit).run.run count = _
    cases estimator.limits.checkTree model <;> rfl
  rw [henter]
  cases estimator.limits.checkTree model with
  | error err => rfl
  | ok => exact h (count + 1)

theorem run_modelBound (model : Expr α) (ranges : Collection α) (count : ℕ) :
    (estimator.modelBound model ranges).run.run count =
      match estimator.limits.checkTree model with
      | .error err => (.error err, count)
      | .ok () =>
        (ModalInterval.toInterval <$> approximate estimator.approximation model ranges.toRanges,
          count + 1) := by
  have hany : Differentiated (fun _ => True) model := .any
  rw [map_eq_pure_bind]
  refine estimator.run_enter_bind ?_ model count
  exact Counted.follows.bind
    (hany.follows_approximate Counted.follows estimator.approximation ranges.toRanges)
    fun bound _ => Counted.follows.pure bound.toInterval

theorem run_nodeBounds (model : Expr α) (ranges : Collection α) (count : ℕ) :
    (estimator.nodeBounds model ranges).run.run count =
      match estimator.limits.checkTree model with
      | .error err => (.error err, count)
      | .ok () =>
        ((fun r => r.2.toList.map fun p => (p.1, p.2.toInterval)) <$>
          approximateNodes estimator.approximation model ranges.toRanges, count + 1) := by
  have hany : Differentiated (fun _ => True) model := .any
  rw [map_eq_pure_bind]
  refine estimator.run_enter_bind ?_ model count
  exact Counted.follows.bind
    (hany.follows_approximateNodes Counted.follows estimator.approximation ranges.toRanges)
    fun r _ => Counted.follows.pure (r.2.toList.map fun p => (p.1, p.2.toInterval))

theorem run_violation (model : Expr α) (ranges : Collection α) (c : ShapeConstraint α) (count : ℕ) :
    (estimator.violation model ranges c).run.run count =
      match c.subject model with
      | .error err => (.error err, count)
      | .ok subject => Prod.map (c.violation <$> ·) id
          ((estimator.modelBound subject (c.rangesOver ranges)).run.run count) := by
  have hsubject : ((c.subjectM model : Counted α _).run.run count) = (c.subject model, count) :=
    Counted.follows.subject (fun _ _ _ _ _ _ => trivial) count
  rw [violation, violationM, ExceptT.run_bind, StateT.run_bind, hsubject]
  cases c.subject model with
  | error err => rfl
  | ok subject =>
    show (estimator.modelBound subject (c.rangesOver ranges) >>= fun bound =>
      pure (c.violation bound)).run.run count =
        Prod.map (c.violation <$> ·) id
          ((estimator.modelBound subject (c.rangesOver ranges)).run.run count)
    rw [ExceptT.run_bind, StateT.run_bind]
    rcases (estimator.modelBound subject (c.rangesOver ranges)).run.run count with ⟨err | bound,
      count'⟩ <;> rfl

end Estimator

end ModalBounds
