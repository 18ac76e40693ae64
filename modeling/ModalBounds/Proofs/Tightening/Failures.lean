import Mathlib
import ModalBounds.Proofs.Evaluation.Success
import ModalBounds.Proofs.Tightening.Ranges

/-!
# How the computation of a bound fails

A tightening step changes ranges of one repeated variable and of its occurrences, and takes none
away (`ChangedAt`). So in every state that is reached each variable of the model and each occurrence
has a range (`Reached`), and derivatives, which have no other variables, can be evaluated there.
What is left to fail are exponents: that of a power under differentiation, and that of a power under
evaluation. With a predicate `Q` for what may happen there, `ends_approximateNodes` says how a whole
computation ends.
-/

namespace ModalBounds

open OccurrenceTree

section
variable {α : Type}

def modelNames (model : Expr α) : Set String :=
  {w | w ∈ model.variableOccurrences ∨ w ∈ (of model).tree.variableOccurrences}

/-! ### States -/

/-- From one state to another only the range of a variable and those of its occurrences change, and
no range is lost. -/
structure ChangedAt (model : Expr α) (name : String) (state state' : WorkingRanges α) : Prop where
  ranges : ∀ v, v ≠ name → state'.ranges[v]? = state.ranges[v]?
  occurrences : ∀ o,
    o ∉ (of model).occurrenceNames name → state'.occurrences[o]? = state.occurrences[o]?
  isSome_ranges : ∀ v : String, (state.ranges[v]?).isSome → (state'.ranges[v]?).isSome
  isSome_occurrences : ∀ o : String,
    (state.occurrences[o]?).isSome → (state'.occurrences[o]?).isSome

namespace ChangedAt

variable {model : Expr α} {name : String} {state state' state'' : WorkingRanges α}

theorem refl (state : WorkingRanges α) : ChangedAt model name state state :=
  ⟨fun _ _ => rfl, fun _ _ => rfl, fun _ h => h, fun _ h => h⟩

theorem trans (h : ChangedAt model name state state') (h' : ChangedAt model name state' state'') :
    ChangedAt model name state state'' where
  ranges v hv := (h'.ranges v hv).trans (h.ranges v hv)
  occurrences o ho := (h'.occurrences o ho).trans (h.occurrences o ho)
  isSome_ranges v hv := h'.isSome_ranges v (h.isSome_ranges v hv)
  isSome_occurrences o ho := h'.isSome_occurrences o (h.isSome_occurrences o ho)

theorem dualizeName {o : String} (ho : o ∈ (of model).occurrenceNames name) :
    ChangedAt model name state (state.dualizeName o) where
  ranges _ _ := rfl
  occurrences o' ho' := by
    rw [WorkingRanges.dualizeName_occurrences, if_neg]
    rintro rfl
    exact ho' ho
  isSome_ranges _ h := h
  isSome_occurrences o' h := by
    rw [WorkingRanges.dualizeName_occurrences]
    split
    · rwa [Option.isSome_map]
    · exact h

theorem dualizeAgainst {overall : Direction} {l : List (String × Direction)}
    (hl : ∀ p ∈ l, p.1 ∈ (of model).occurrenceNames name) :
    ChangedAt model name state (state.dualizeAgainst overall l) := by
  induction l generalizing state with
  | nil => exact .refl state
  | cons p l ih =>
    rw [List.forall_mem_cons] at hl
    rw [WorkingRanges.dualizeAgainst]
    split
    · exact ih hl.2
    · exact (dualizeName hl.1).trans (ih hl.2)

theorem collapseToMid [Elementary α] :
    ChangedAt model name state (state.collapseToMid (of model) name) := by
  rw [WorkingRanges.collapseToMid]
  split
  · exact .refl state
  · constructor
    · intro v hv
      rw [Std.ExtTreeMap.getElem?_insert, if_neg (by simpa using hv.symm)]
    · intro o ho
      rw [getElem?_seedNames, if_neg ho]
    · intro v hv
      rw [Std.ExtTreeMap.getElem?_insert]
      split
      · rfl
      · exact hv
    · intro o ho
      rw [getElem?_seedNames]
      split
      · rfl
      · exact ho

end ChangedAt

/-- A state that tightening reaches from the given ranges: each variable and each occurrence has a
range, and those of variables that are not repeated are as given. -/
structure Reached (model : Expr α) (ranges : Ranges α) (state : WorkingRanges α) : Prop where
  isSome : ∀ w ∈ modelNames model, (state.environment w).isSome
  kept : ∀ w ∈ modelNames model, model.occurrences ((of model).owner w) ≤ 1 →
    state.environment w = ranges[(of model).owner w]?

namespace Reached

variable {model : Expr α} {ranges : Ranges α} {state state' : WorkingRanges α}

theorem environment_eq (state : WorkingRanges α) (w : String) :
    state.environment w = (state.occurrences[w]?).or (state.ranges[w]?) := rfl

theorem owner_of_mem {v : String} (hv : v ∈ model.variableOccurrences) : (of model).owner v = v :=
  owner_of_not_mem model fun ho => not_mem_of_mem model ho hv

theorem seed (hranges : ∀ v ∈ model.variableOccurrences, (ranges[v]?).isSome)
    (h : WorkingRanges.seed (of model) ranges = .ok state) : Reached model ranges state := by
  have henv : ∀ w ∈ modelNames model, state.environment w = ranges[(of model).owner w]? := by
    intro w hw
    rw [environment_eq, WorkingRanges.seed_ranges h, WorkingRanges.seed_occurrences h]
    rcases hw with hv | ho
    · rw [if_neg fun ho => not_mem_of_mem model ho hv, owner_of_mem hv, Option.none_or]
    · obtain ⟨x, hx⟩ := Option.isSome_iff_exists.1 (hranges _ (owner_mem model ho))
      rw [if_pos ho, hx, Option.some_or]
  refine ⟨fun w hw => ?_, fun w hw _ => henv w hw⟩
  rw [henv w hw]
  rcases hw with hv | ho
  · exact hranges _ ((owner_of_mem hv).symm ▸ hv)
  · exact hranges _ (owner_mem model ho)

theorem changedAt {name : String} (h : Reached model ranges state)
    (hname : 2 ≤ model.occurrences name)
    (hstep : ChangedAt model name state state') : Reached model ranges state' := by
  constructor
  · intro w hw
    have hsome := h.isSome w hw
    rw [environment_eq, Option.isSome_or, Bool.or_eq_true] at hsome ⊢
    exact hsome.imp (hstep.isSome_occurrences w) (hstep.isSome_ranges w)
  · intro w hw hle
    have hmem : name ∈ model.variableOccurrences := Expr.mem_of_two_le_occurrences hname
    have howner : (of model).owner w ≠ name := by
      rintro rfl
      omega
    have hne : w ≠ name := by
      rintro rfl
      exact howner (owner_of_mem hmem)
    rw [environment_eq, hstep.ranges w hne, hstep.occurrences w, ← environment_eq]
    · exact h.kept w hw hle
    · exact fun ho => howner ((mem_occurrenceNames model).1 ho).2

end Reached

end

/-! ### Runs -/

/-- What the computation of a bound needs so that it ends well, or in a way that `Q` allows:
expressions that can be evaluated, and integers in the exponents that are met. -/
structure Tightenable {α : Type} [Elementary α] (Q : ModelError α → Prop) (E : Set (Expr α))
    (model : Expr α)
    (ranges : Ranges α) : Prop where
  evaluable : model.Evaluable (modelNames model) E
  treeEvaluable : (of model).tree.Evaluable (modelNames model) E
  powers : ∀ v, 2 ≤ model.occurrences v → model.PowersDerivable Q E v
  treePowers : ∀ o,
    2 ≤ model.occurrences ((of model).owner o) → (of model).tree.PowersDerivable Q E o
  exponents : ∀ state, Reached model ranges state → ∀ n ∈ E, ∀ x y,
    n.interval state.environment = .ok y →
    Ends Q (fun _ => True) (Machine.powerOf x y)

namespace Tightenable

variable {α : Type} [Elementary α] {Q : ModelError α → Prop} {E : Set (Expr α)} {model e : Expr α}
variable {ranges : Ranges α} {state : WorkingRanges α} (h : Tightenable Q E model ranges)

include h

theorem ends_evaluate (hstate : Reached model ranges state)
    (he : e.Evaluable (modelNames model) E) : Ends Q (fun _ => True) (state.evaluate e) := by
  obtain ⟨p, hp⟩ := he.exists_compile
  rw [WorkingRanges.evaluate_eq, hp]
  show Ends Q _ (p.evaluate state.environment)
  rw [Program.evaluate_eq hp fun v hv => hstate.isSome v (he.mem_of_occurs hv)]
  exact he.ends_interval hstate.isSome (h.exponents state hstate)

theorem ends_slope (hstate : Reached model ranges state)
    (he : e.Evaluable (modelNames model) E) {x : String}
    (hp : e.PowersDerivable Q E x) : Ends Q (fun _ => True) (state.slope e x) :=
  (he.derivativeAt hp 0).bind fun _ hd => h.ends_evaluate hstate hd

theorem ends_directions (hstate : Reached model ranges state) {names : List String}
    (hnames : ∀ o ∈ names, (of model).tree.PowersDerivable Q E o) :
    Ends Q (fun _ => True) (state.directions? (of model).tree names) := by
  induction names with
  | nil => trivial
  | cons o names ih =>
    rw [List.forall_mem_cons] at hnames
    refine (h.ends_slope hstate h.treeEvaluable hnames.1).bind fun y _ => ?_
    rcases direction? y with _ | d
    · trivial
    · exact (ih hnames.2).bind fun _ _ => trivial

/-- A tightening step reaches a state again; that a variable is not monotonic is only said of
repeated ones. -/
theorem ends_dualize (hstate : Reached model ranges state) (v : String) :
    Ends Q (fun r => Reached model ranges r.1 ∧ (r.2 = false → 2 ≤ model.occurrences v))
      (state.dualize model (of model) v) := by
  rw [WorkingRanges.dualize_eq]
  split
  · exact ⟨hstate, by rintro ⟨⟩⟩
  · rename_i hlen
    have hv : 2 ≤ model.occurrences v := by
      rw [length_occurrenceNames_of] at hlen
      omega
    have hnames : ∀ o ∈ (of model).occurrenceNames v, (of model).tree.PowersDerivable Q E o :=
      fun o ho => h.treePowers o (((mem_occurrenceNames model).1 ho).2.symm ▸ hv)
    refine (h.ends_slope hstate h.evaluable (h.powers v hv)).bind fun y _ => ?_
    rcases direction? y with _ | overall
    · exact ⟨hstate, fun _ => hv⟩
    · refine (h.ends_directions hstate hnames).bind fun ds _ => ?_
      rcases ds with _ | ds
      · exact ⟨hstate, fun _ => hv⟩
      · exact ⟨hstate.changedAt hv (.dualizeAgainst fun p hp => (List.of_mem_zip hp).1), fun _ =>
          hv⟩

theorem ends_tighten (approximation : Approximation) (hstate : Reached model ranges state)
    (vs : List String) :
    Ends Q (Reached model ranges) (tighten approximation model (of model) state vs) := by
  induction vs generalizing state with
  | nil => exact hstate
  | cons v vs ih =>
    refine (h.ends_dualize hstate v).bind fun r hr => ?_
    rcases r with ⟨state₁, monotonic⟩
    show Ends Q _ (tighten approximation model (of model)
      (if (!monotonic && approximation == .inner) = true then state₁.collapseToMid (of model) v
        else state₁) vs)
    split
    · rename_i hcollapse
      rw [Bool.and_eq_true, Bool.not_eq_true'] at hcollapse
      exact ih (hr.1.changedAt (hr.2 hcollapse.1) .collapseToMid)
    · exact ih hr.1

/-- The computation of a bound ends well, or in a way that `Q` allows. -/
theorem ends_approximateNodes (approximation : Approximation)
    (hranges : ∀ v ∈ model.variableOccurrences, (ranges[v]?).isSome) :
    Ends Q (fun _ => True) (approximateNodes approximation model ranges) := by
  obtain ⟨seeded, hseeded⟩ := WorkingRanges.seed_isOk hranges
  obtain ⟨p, hp⟩ := h.treeEvaluable.exists_compile
  rw [approximateNodes_eq, hseeded, hp]
  refine (h.ends_tighten approximation (.seed hranges hseeded) _).bind fun state hstate => ?_
  show Ends Q _ (p.evaluate state.environment >>= fun bound => _)
  rw [Program.evaluate_eq hp fun v hv => hstate.isSome v (h.treeEvaluable.mem_of_occurs hv)]
  exact (h.treeEvaluable.ends_interval hstate.isSome (h.exponents state hstate)).bind fun _ _ =>
    trivial

end Tightenable

/-! ### Models that compile -/

namespace ModelError

variable {α : Type}

def IsLimitExceeded : ModelError α → Prop
  | .limitExceeded _ _ _ => True
  | _ => False

end ModelError

section
variable {α : Type} [Elementary α] {V : Set String} {model e : Expr α} {p : Program α}

namespace Expr

omit [Elementary α] in
theorem powersDerivable_univ [Scalar α] (e : Expr α) (x : String) :
    e.PowersDerivable ModelError.IsUnsupportedExponent Set.univ x := by
  intro f n _ _
  rcases hc : n.constantValue? with _ | c
  · exact .inr ⟨rfl, trivial⟩
  · cases hint : (Scalar.integer? c).isSome with
    | true => exact .inl ⟨c, rfl, hint, trivial⟩
    | false => exact .inr ⟨hint, trivial⟩

omit [Elementary α] in
theorem Evaluable.ends_derivatives [Scalar α] (h : e.Evaluable V Set.univ) (xs : List String) :
    Ends ModelError.IsUnsupportedExponent (·.Evaluable V Set.univ) (e.derivatives xs) := by
  induction xs generalizing e with
  | nil => exact h
  | cons x xs ih => exact (h.derivativeAt (e.powersDerivable_univ x) 0).bind fun d hd => ih hd

end Expr

theorem tightenable_of_compile (hp : Program.compile model = .ok p) (ranges : Ranges α) :
    Tightenable ModelError.IsUnsupportedExponent Set.univ model ranges where
  evaluable := (Expr.exists_compile_iff.1 ⟨p, hp⟩).mono fun _ hv => .inl hv
  treeEvaluable := (evaluable_tree_of_compile hp).mono fun _ ho => .inr ho
  powers v _ := model.powersDerivable_univ v
  treePowers o _ := (of model).tree.powersDerivable_univ o
  exponents _ _ _ _ x y _ := ends_powerOf x y

namespace Estimator

variable (estimator : Estimator) {ranges : Collection α}

omit [Elementary α] in
theorem ends_checkTree (limits : Limits) (e : Expr α) :
    Ends ModelError.IsLimitExceeded (fun _ => True) (limits.checkTree e) := by
  have hcheck (limit : Limit) (allowed actual : ℕ) :
      Ends (ModelError.IsLimitExceeded (α := α)) (fun _ => True)
        (Limits.check limit allowed actual) := by
    rw [Limits.check]
    split <;> trivial
  exact (hcheck _ _ _).bind fun _ _ => hcheck _ _ _

theorem ends_modelBound (hp : Program.compile model = .ok p)
    (hranges : ∀ v ∈ model.variableOccurrences, (ranges[v]?).isSome) (count : ℕ) :
    Ends (fun err => err.IsUnsupportedExponent ∨ err.IsLimitExceeded) (fun _ => True)
      ((estimator.modelBound model ranges).run.run count).1 := by
  have hranges' : ∀ v ∈ model.variableOccurrences, (ranges.toRanges[v]?).isSome := by
    intro v hv
    show (ranges.toRanges.environment v).isSome
    rw [Collection.environment_toRanges, Option.isSome_map]
    exact hranges v hv
  have hlimits := ends_checkTree estimator.limits model
  have hbound : Ends ModelError.IsUnsupportedExponent (fun _ => True)
      (approximate estimator.approximation model ranges.toRanges) :=
    ((tightenable_of_compile hp ranges.toRanges).ends_approximateNodes estimator.approximation
      hranges').bind
      fun _ _ => trivial
  rw [run_modelBound]
  cases hcheck : estimator.limits.checkTree model with
  | error err =>
    rw [hcheck] at hlimits
    exact .inr hlimits
  | ok => exact (hbound.map fun _ _ => trivial).mono fun _ => .inl

omit [Elementary α] in
/-- What a constraint is about can be evaluated, and has no other variables than the model. -/
theorem ends_subject [Scalar α] (hp : Program.compile model = .ok p) (c : ShapeConstraint α) :
    Ends ModelError.IsUnsupportedExponent (·.Evaluable {v | v ∈ model.variableOccurrences} Set.univ)
      (c.subject model) := by
  have hmodel := Expr.exists_compile_iff.1 ⟨p, hp⟩
  rw [ShapeConstraint.subject_eq]
  split
  · exact hmodel
  · rw [Expr.nthDerivative_eq_derivatives]
    exact hmodel.ends_derivatives _

theorem ends_violation (hp : Program.compile model = .ok p) (c : ShapeConstraint α)
    (hranges : ∀ v ∈ model.variableOccurrences, ((c.rangesOver ranges)[v]?).isSome) (count : ℕ) :
    Ends (fun err => err.IsUnsupportedExponent ∨ err.IsLimitExceeded) (fun _ => True)
      ((estimator.violation model ranges c).run.run count).1 := by
  have hsubject := ends_subject hp c
  rw [run_violation]
  cases hs : c.subject model with
  | error err =>
    rw [hs] at hsubject
    exact .inl hsubject
  | ok subject =>
    rw [hs] at hsubject
    obtain ⟨q, hq⟩ := Expr.Evaluable.exists_compile hsubject
    have hbound :=
      estimator.ends_modelBound hq (fun v hv => hranges v (hsubject.mem_of_occurs hv)) count
    exact hbound.map fun _ _ => trivial

end Estimator

/-- With a model that compiles and a range for each of its variables, a bound and a violation exist,
or an exponent is not supported, or a limit is exceeded; nothing else goes wrong. Whatever variables
the model or its occurrence tree is differentiated along, the derivatives compile and have no other
variables. -/
theorem ends_of_compile (hp : Program.compile model = .ok p) :
    (∀ (estimator : Estimator) (ranges : Collection α) (count : ℕ),
      (∀ v ∈ model.variableOccurrences, (ranges[v]?).isSome) →
        Ends (fun err => err.IsUnsupportedExponent ∨ err.IsLimitExceeded) (fun _ => True)
          ((estimator.modelBound model ranges).run.run count).1) ∧
    (∀ (estimator : Estimator) (ranges : Collection α) (c : ShapeConstraint α) (count : ℕ),
      (∀ v ∈ model.variableOccurrences, ((c.rangesOver ranges)[v]?).isSome) →
        Ends (fun err => err.IsUnsupportedExponent ∨ err.IsLimitExceeded) (fun _ => True)
          ((estimator.violation model ranges c).run.run count).1) ∧
    (∀ xs d, model.derivatives xs = .ok d →
      (∃ q, Program.compile d = .ok q) ∧ ∀ v ∈ d.variableOccurrences,
      v ∈ model.variableOccurrences) ∧
    (∀ os d, (of model).tree.derivatives os = .ok d →
      (∃ q, Program.compile d = .ok q) ∧
        ∀ o ∈ d.variableOccurrences, o ∈ (of model).tree.variableOccurrences) := by
  have hmodel := Expr.exists_compile_iff.1 ⟨p, hp⟩
  have htree := evaluable_tree_of_compile hp
  refine ⟨fun estimator _ count hranges => estimator.ends_modelBound hp hranges count,
    fun estimator _ c count hranges => estimator.ends_violation hp c hranges count,
    fun xs d hd => ?_, fun os d hd => ?_⟩
  · have h : d.Evaluable _ _ := (hmodel.ends_derivatives xs).of_ok hd
    exact ⟨h.exists_compile, fun v hv => h.mem_of_occurs hv⟩
  · have h : d.Evaluable _ _ := (htree.ends_derivatives os).of_ok hd
    exact ⟨h.exists_compile, fun o ho => h.mem_of_occurs ho⟩

end

section
attribute [local instance] RealFunctions.zero

/-- The model `x ^ (1 + 1) + x`. -/
def selfToSumPlusSelf : Expr ℚ :=
  .binary .add (.binary .power (.ofVariable "x") (.binary .add (.constant 1) (.constant 1)))
    (.ofVariable "x")

/-- A constraint on the slope of `x ^ (1 + 1) + x`: the range of `x` is that of the constraint. -/
theorem ends_selfToSumPlusSelf :
    Ends (fun err => err.IsUnsupportedExponent ∨ err.IsLimitExceeded) (fun _ => True)
      ((Estimator.violation {} selfToSumPlusSelf ∅
        ⟨⟨0, 1⟩, 1, some "x", 1, some ((∅ : Collection ℚ).insert "x" ⟨0, 1⟩)⟩).run.run 0).1 := by
  have hnames : selfToSumPlusSelf.variableOccurrences = ["x", "x"] := by decide +kernel
  have hp : Program.compile selfToSumPlusSelf = .ok _ := rfl
  refine (ends_of_compile hp).2.1 _ _ _ _ fun v hv => ?_
  rw [hnames] at hv
  obtain rfl : v = "x" := by simpa using hv
  decide +kernel

end

end ModalBounds
