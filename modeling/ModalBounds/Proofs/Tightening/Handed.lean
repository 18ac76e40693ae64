import Mathlib
import ModalBounds.Proofs.Expr.Growth
import ModalBounds.Proofs.Tightening.Failures

/-!
# Which expressions are handed over

A bound computation hands expressions over to be differentiated, to have their occurrences told
apart, and to be compiled. Run where these are collected (`Handing`) it computes the same (`Hands`).
For a bound they are the model, its occurrence tree, and slopes of both along what is repeated, so
they are not much deeper or longer than the limits allow a model to be. For a violation they are
also the derivatives on the way to the subject of the constraint, for which no limits count.
-/

namespace ModalBounds

open OccurrenceTree

/-- A computation with the expressions that it hands over. -/
abbrev Handing (α : Type) := ExceptT (ModelError α) (StateM (List (Expr α)))

instance {α : Type} : MonadBound α (Handing α) where
  hand e := modify fun handed => handed ++ [e]
  count := pure ()
  ofExcept x := MonadExcept.ofExcept x

namespace Handing

section
variable {α β : Type}

def result (m : Handing α β) : Except (ModelError α) β := (m.run.run []).1

/-- The expressions that are handed over, also before a failure. -/
def handed (m : Handing α β) : List (Expr α) := (m.run.run []).2

end

variable {α : Type} [Elementary α]

def modelBound (estimator : Estimator) (model : Expr α) (ranges : Collection α) :
    Handing α (Interval α) :=
  estimator.modelBoundM model ranges

def violation (estimator : Estimator) (model : Expr α) (ranges : Collection α)
    (c : ShapeConstraint α) : Handing α α :=
  estimator.violationM model ranges c

end Handing

/-! ### What is computed, and what is handed over -/

/-- A computation comes to `x`, and hands over these expressions, in this order. -/
def Records {α β : Type} (m : Handing α β) (handed : List (Expr α)) (x : Except (ModelError α) β) :
    Prop :=
  ∀ before, m.run.run before = (x, before ++ handed)

namespace Records

variable {α β γ : Type} {m : Handing α β} {handed handed' : List (Expr α)}
  {x : Except (ModelError α) β}

theorem result_eq (h : Records m handed x) : m.result = x := by rw [Handing.result, h []]

theorem handed_eq (h : Records m handed x) : m.handed = handed := by
  rw [Handing.handed, h [], List.nil_append]

theorem pure (b : β) : Records (α := α) (Pure.pure b) [] (.ok b) := by
  intro before
  rw [List.append_nil]
  rfl

theorem ofExcept (x : Except (ModelError α) β) : Records (MonadBound.ofExcept x) [] x := by
  intro before
  rw [List.append_nil]
  cases x <;> rfl

theorem hand (e : Expr α) : Records (MonadBound.hand e) [e] (.ok ()) := fun _ => rfl

theorem bind {b : β} {f : β → Handing α γ} {y : Except (ModelError α) γ}
    (h : Records m handed (.ok b))
    (hf : Records (f b) handed' y) : Records (m >>= f) (handed ++ handed') y := by
  intro before
  rw [ExceptT.run_bind, StateT.run_bind, h before, ← List.append_assoc]
  exact hf _

theorem bind_error {err : ModelError α} (h : Records m handed (.error err)) (f : β → Handing α γ) :
    Records (m >>= f) handed (.error err) := by
  intro before
  rw [ExceptT.run_bind, StateT.run_bind, h before]
  rfl

theorem bind_nil {f : β → Handing α γ} {g : β → Except (ModelError α) γ} (h : Records m handed x)
    (hf : ∀ b, Records (f b) [] (g b)) : Records (m >>= f) handed (x >>= g) := by
  cases x with
  | error err => exact h.bind_error f
  | ok b => exact List.append_nil handed ▸ h.bind (hf b)

end Records

/-- A computation comes to `x`, and all that it hands over has the property `P`. -/
def Hands {α β : Type} (P : Expr α → Prop) (m : Handing α β) (x : Except (ModelError α) β) : Prop :=
  ∃ handed, Records m handed x ∧ ∀ e ∈ handed, P e

namespace Hands

variable {α β γ : Type} {P : Expr α → Prop} {m : Handing α β} {x : Except (ModelError α) β}

theorem result_eq (h : Hands P m x) : m.result = x := by
  obtain ⟨handed, hrecords, -⟩ := h
  exact hrecords.result_eq

theorem of_mem_handed (h : Hands P m x) : ∀ e ∈ m.handed, P e := by
  obtain ⟨handed, hrecords, hall⟩ := h
  rwa [hrecords.handed_eq]

theorem bind {f : β → Handing α γ} {g : β → Except (ModelError α) γ} (h : Hands P m x)
    (hf : ∀ b, x = .ok b → Hands P (f b) (g b)) : Hands P (m >>= f) (x >>= g) := by
  obtain ⟨handed, hrecords, hall⟩ := h
  cases x with
  | error err => exact ⟨handed, hrecords.bind_error f, hall⟩
  | ok b =>
    obtain ⟨handed', hrecords', hall'⟩ := hf b rfl
    exact ⟨handed ++ handed', hrecords.bind hrecords', List.forall_mem_append.2 ⟨hall, hall'⟩⟩

theorem follows : Follows P fun _ => Hands P where
  pure b := ⟨[], .pure b, by simp⟩
  ofExcept x := ⟨[], .ofExcept x, by simp⟩
  hand {e} he := ⟨[e], .hand e, by simpa using he⟩
  bind := bind

end Hands

/-! ### What is handed over in any case -/

namespace Records

section
variable {α : Type} [Scalar α] {x : String}

theorem derivative (e : Expr α) (x : String) : Records (e.derivativeM x) [e] (e.derivative x) :=
  (hand e).bind_nil fun _ => .ofExcept _

theorem nthDerivative (order : ℕ) (e : Expr α) :
    ∃ handed, Records (e.nthDerivativeM (Expr.derivativeM x) order) handed
      (e.nthDerivative x order) ∧
      ∀ i < order, ∀ d, e.nthDerivative x i = .ok d → d ∈ handed := by
  induction order generalizing e with
  | zero => exact ⟨[], .pure e, by simp⟩
  | succ order ih =>
    have hfirst := derivative e x
    have hstep (i : ℕ) : e.nthDerivative x (i + 1) = e.derivative x >>= fun d =>
        d.nthDerivative x i := rfl
    rw [hstep]
    cases hd : e.derivative x with
    | error err =>
      rw [hd] at hfirst
      refine ⟨[e], hfirst.bind_error _, fun i _ d' hd' => ?_⟩
      cases i with
      | zero => cases hd'; simp
      | succ i =>
        rw [hstep, hd] at hd'
        cases hd'
    | ok d =>
      rw [hd] at hfirst
      obtain ⟨handed, hrecords, hall⟩ := ih d
      refine ⟨e :: handed, hfirst.bind hrecords, fun i hi d' hd' => ?_⟩
      cases i with
      | zero => cases hd'; simp
      | succ i =>
        rw [hstep, hd] at hd'
        exact List.mem_cons_of_mem e (hall i (Nat.lt_of_succ_lt_succ hi) d' hd')

end

section
variable {α : Type} [Elementary α] {model e d : Expr α}
  {state state' : WorkingRanges α} {v : String}

omit [Elementary α] in
theorem compile (e : Expr α) : Records e.compileM [e] (Program.compile e) :=
  (hand e).bind_nil fun _ => .ofExcept _

theorem evaluate (e : Expr α) : Records (state.evaluateM e) [e] (state.evaluate e) :=
  (compile e).bind_nil fun _ => .ofExcept _

theorem slope (hd : e.derivative v = .ok d) :
    Records (state.slopeM e v) [e, d] (state.slope e v) := by
  have hfirst := derivative e v
  rw [WorkingRanges.slope_eq, hd]
  rw [hd] at hfirst
  exact hfirst.bind (evaluate d)

/-- The slope of the model is handed over where a variable is repeated; else nothing is. -/
theorem dualize {r : WorkingRanges α × Bool} (h : state.dualize model (of model) v = .ok r) :
    ∃ handed, Records (state.dualizeM model (of model) v) handed (.ok r) ∧
      (2 ≤ model.occurrences v → ∃ d ∈ handed, model.derivative v = .ok d) := by
  rw [WorkingRanges.dualize_eq] at h
  rw [WorkingRanges.dualizeM]
  split at h
  · rename_i hlen
    rw [length_occurrenceNames_of] at hlen
    rw [if_pos (by rwa [length_occurrenceNames_of])]
    exact ⟨[], h ▸ .pure _, fun hv => by omega⟩
  · rename_i hlen
    rw [if_neg hlen]
    obtain ⟨y, hy, h⟩ := bind_eq_ok.1 h
    obtain ⟨d, hd, -⟩ := bind_eq_ok.1 hy
    have hslope : Records (state.slopeM model v) [model, d] (.ok y) := hy ▸ slope hd
    rcases hdir : direction? y with _ | overall
    · rw [hdir] at h
      cases h
      refine ⟨[model, d] ++ [], hslope.bind ?_, fun _ => ⟨d, by simp, hd⟩⟩
      rw [hdir]
      exact .pure _
    · rw [hdir] at h
      obtain ⟨ds, hds, h⟩ := bind_eq_ok.1 h
      -- which slopes of the tree are handed over does not matter
      have hdirections : Hands (fun _ => True)
          (state.directionsM? (of model).tree ((of model).occurrenceNames v)) _ :=
        Hands.follows.directions? trivial fun _ _ _ _ => trivial
      rw [hds] at hdirections
      obtain ⟨handed, hrecords, -⟩ := hdirections
      refine ⟨[model, d] ++ (handed ++ []), hslope.bind ?_, fun _ => ⟨d, by simp, hd⟩⟩
      rw [hdir]
      refine hrecords.bind ?_
      cases ds <;> (cases h; exact .pure _)

theorem tighten {approximation : Approximation} {vs : List String}
    (h : ModalBounds.tighten approximation model (of model) state vs = .ok state') :
    ∃ handed, Records (tightenM approximation model (of model) state vs) handed (.ok state') ∧
      ∀ v ∈ vs, 2 ≤ model.occurrences v → ∃ d ∈ handed, model.derivative v = .ok d := by
  induction vs generalizing state with
  | nil => exact ⟨[], h ▸ .pure state, by simp⟩
  | cons v vs ih =>
    rw [tighten_cons] at h
    obtain ⟨r, hr, h⟩ := bind_eq_ok.1 h
    obtain ⟨first, hfirst, hv⟩ := dualize hr
    obtain ⟨rest, hrest, hvs⟩ := ih h
    refine ⟨first ++ rest, hfirst.bind hrest, fun w hw hocc => ?_⟩
    rcases List.mem_cons.1 hw with rfl | hw
    · obtain ⟨d, hd, hderivative⟩ := hv hocc
      exact ⟨d, List.mem_append_left _ hd, hderivative⟩
    · obtain ⟨d, hd, hderivative⟩ := hvs w hw hocc
      exact ⟨d, List.mem_append_right _ hd, hderivative⟩

theorem approximateNodes {approximation : Approximation} {ranges : Ranges α}
    {r : ModalInterval α × NodeIntervals α}
    (h : ModalBounds.approximateNodes approximation model ranges = .ok r) :
    ∃ slopes, Records (approximateNodesM approximation model ranges)
      (model :: slopes ++ [(of model).tree]) (.ok r) ∧
      ∀ v, 2 ≤ model.occurrences v → ∃ d ∈ slopes, model.derivative v = .ok d := by
  rw [approximateNodes_eq] at h
  obtain ⟨seeded, hseeded, h⟩ := bind_eq_ok.1 h
  obtain ⟨state, hstate, h⟩ := bind_eq_ok.1 h
  obtain ⟨p, hp, h⟩ := bind_eq_ok.1 h
  obtain ⟨bound, hbound, h⟩ := bind_eq_ok.1 h
  obtain ⟨slopes, htighten, hall⟩ := tighten hstate
  have hmodel : Records model.occurrenceTreeM [model] (.ok (of model)) :=
    (hand model).bind (.pure _)
  have hseed : Records (MonadBound.ofExcept (WorkingRanges.seed (of model) ranges)) []
      (.ok seeded) := hseeded ▸ .ofExcept _
  have htree : Records (of model).tree.compileM [(of model).tree] (.ok p) := hp ▸ .compile _
  have hrun : Records (MonadBound.ofExcept (p.run state.environment ∅).1) [] (.ok bound) :=
    hbound ▸ .ofExcept _
  refine ⟨slopes, ?_, fun v hv =>
    hall v (mem_variableNames_of.2 (Expr.mem_of_two_le_occurrences hv)) hv⟩
  cases h
  exact hmodel.bind (hseed.bind (htighten.bind (htree.bind (hrun.bind (.pure _)))))

end

end Records

namespace Estimator

variable {α : Type} [Elementary α] (estimator : Estimator) {P : Expr α → Prop} {model : Expr α}

omit [Elementary α] in
theorem records_enter (model : Expr α) :
    Records (estimator.enterM model) [] (estimator.limits.checkTree model) := by
  have hcheck : Records (estimator.enterM model) [] (estimator.limits.checkTree model >>= pure) :=
    (Records.ofExcept _).bind_nil fun _ => .pure ()
  rwa [bind_pure] at hcheck

theorem hands_modelBound (h : estimator.limits.checkTree model = .ok () → Differentiated P model)
    (ranges : Collection α) (count : ℕ) :
    Hands P (Handing.modelBound estimator model ranges)
      ((estimator.modelBound model ranges).run.run count).1 := by
  have henter := estimator.records_enter model
  rw [run_modelBound]
  cases hcheck : estimator.limits.checkTree model with
  | error err =>
    rw [hcheck] at henter
    exact ⟨[], henter.bind_error _, by simp⟩
  | ok =>
    rw [hcheck] at henter
    have hbound :=
      (h hcheck).follows_approximate Hands.follows estimator.approximation ranges.toRanges
    obtain ⟨handed, hrecords, hall⟩ :=
      hbound.bind fun bound _ => Hands.follows.pure bound.toInterval
    refine ⟨handed, ?_, hall⟩
    show Records _ handed (_ <$> _)
    rw [map_eq_pure_bind]
    exact henter.bind hrecords

/-- The derivatives on the way to the subject are handed over unchecked. -/
theorem hands_violation {c : ShapeConstraint α}
    (hway : ∀ x, c.variableName = some x → ∀ i < c.derivations, ∀ d,
      model.nthDerivative x i = .ok d → P d)
    (h : ∀ subject, c.subject model = .ok subject → estimator.limits.checkTree subject = .ok () →
      Differentiated P subject) (ranges : Collection α) (count : ℕ) :
    Hands P (Handing.violation estimator model ranges c)
      ((estimator.violation model ranges c).run.run count).1 := by
  have hsubject := Hands.follows.subject hway
  rw [run_violation]
  cases hs : c.subject model with
  | error err =>
    rw [hs] at hsubject
    obtain ⟨handed, hrecords, hall⟩ := hsubject
    exact ⟨handed, hrecords.bind_error _, hall⟩
  | ok subject =>
    rw [hs] at hsubject
    have hbound := estimator.hands_modelBound (h subject hs) (c.rangesOver ranges) count
    obtain ⟨handed, hrecords, hall⟩ := hsubject
    obtain ⟨handed', hrecords', hall'⟩ :=
      hbound.bind fun bound _ => Hands.follows.pure (c.violation bound)
    refine ⟨handed ++ handed', ?_, List.forall_mem_append.2 ⟨hall, hall'⟩⟩
    show Records _ _ (_ <$> _)
    rw [map_eq_pure_bind]
    exact hrecords.bind hrecords'

/-- A bound that is found has handed over the model, its occurrence tree, and the slopes of the
model along what is repeated. -/
theorem mem_handed_modelBound {ranges : Collection α} {count : ℕ} {bound : Interval α}
    (h : ((estimator.modelBound model ranges).run.run count).1 = .ok bound) :
    model ∈ (Handing.modelBound estimator model ranges).handed ∧
    (of model).tree ∈ (Handing.modelBound estimator model ranges).handed ∧
    ∀ v, 2 ≤ model.occurrences v →
      ∃ d ∈ (Handing.modelBound estimator model ranges).handed, model.derivative v = .ok d := by
  have henter := estimator.records_enter model
  rw [run_modelBound] at h
  cases hcheck : estimator.limits.checkTree model with
  | error err =>
    rw [hcheck] at h
    cases h
  | ok =>
    rw [hcheck] at h henter
    obtain ⟨x, hx, -⟩ := map_eq_ok.1 h
    rw [approximate_eq_map] at hx
    obtain ⟨r, hr, -⟩ := map_eq_ok.1 hx
    obtain ⟨slopes, hnodes, hall⟩ := Records.approximateNodes hr
    have hbound : Records (approximateM estimator.approximation model ranges.toRanges) _ _ :=
      hnodes.bind (.pure _)
    have hrecords : Records (Handing.modelBound estimator model ranges) _ _ :=
      henter.bind (hbound.bind (.pure _))
    rw [hrecords.handed_eq]
    refine ⟨by simp, by simp, fun v hv => ?_⟩
    obtain ⟨d, hd, hderivative⟩ := hall v hv
    exact ⟨d, by simp [hd], hderivative⟩

/-- All derivatives on the way to the subject of a constraint are handed over. -/
theorem mem_handed_violation {c : ShapeConstraint α} {x : String}
    (hx : c.variableName = some x) {i : ℕ}
    (hi : i < c.derivations) {d : Expr α} (hd : model.nthDerivative x i = .ok d)
    (ranges : Collection α) : d ∈ (Handing.violation estimator model ranges c).handed := by
  obtain ⟨handed, hrecords, hall⟩ := Records.nthDerivative (x := x) c.derivations model
  have hsubject : Records (c.subjectM model) handed (c.subject model) := by
    rw [ShapeConstraint.subject_eq, ShapeConstraint.subjectM, hx]
    exact hrecords
  cases hs : c.subject model with
  | error err =>
    rw [hs] at hsubject
    have hviolation : Records (Handing.violation estimator model ranges c) handed _ :=
      hsubject.bind_error _
    rw [hviolation.handed_eq]
    exact hall i hi d hd
  | ok subject =>
    rw [hs] at hsubject
    have hbound : Hands (fun _ => True)
        (Handing.modelBound estimator subject (c.rangesOver ranges)) _ :=
      estimator.hands_modelBound (fun _ => .any) _ 0
    obtain ⟨handed', hrecords', -⟩ :=
      hbound.bind fun bound _ => Hands.follows.pure (c.violation bound)
    have hviolation : Records (Handing.violation estimator model ranges c) (handed ++ handed') _ :=
      hsubject.bind hrecords'
    rw [hviolation.handed_eq]
    exact List.mem_append_left _ (hall i hi d hd)

end Estimator

end ModalBounds
