import Mathlib
import ModalBounds.Proofs.Interval.Dual
import ModalBounds.Proofs.Tightening.Seeding

/-!
# Sequences of tightening steps

A step is `dualize` or `collapseToMid` for any variable; `tighten` is one order of such steps
(`exists_steps_of_tighten`). In every state that steps reach from the seeded one the occurrences are
those of the model, and each variable has a range that all its occurrences have too, with or without
exchanged bounds: the given one, or a single point (`StepInvariant`). What a step changes at one
variable is said by `Held`, and what it leaves alone by `ChangedAt`.
-/

namespace ModalBounds

open OccurrenceTree

/-- One step of tightening. -/
inductive TighteningStep where
  | dualize (name : String)
  | collapse (name : String)
deriving DecidableEq, Repr

namespace TighteningStep

def name : TighteningStep → String
  | dualize name => name
  | collapse name => name

variable {α : Type} [Elementary α]

/-- The state after a step, which fails if a slope cannot be computed. -/
def run (model : Expr α) (state : WorkingRanges α) :
    TighteningStep → Except (ModelError α) (WorkingRanges α)
  | dualize name => do
    let (state, _) ← state.dualize model (of model) name
    return state
  | collapse name => .ok (state.collapseToMid (of model) name)

def runAll (model : Expr α) :
    WorkingRanges α → List TighteningStep → Except (ModelError α) (WorkingRanges α)
  | state, [] => .ok state
  | state, step :: steps => do
    let state ← step.run model state
    runAll model state steps

end TighteningStep

section
variable {α : Type} [Elementary α] {model : Expr α} {ranges : Ranges α}
  {seeded state state' : WorkingRanges α}

/-! ### What one step changes -/

theorem ChangedAt.dualize {v : String} {monotonic : Bool}
    (h : state.dualize model (of model) v = .ok (state', monotonic)) :
    ChangedAt model v state state' := by
  rcases WorkingRanges.dualize_eq_ok h with ⟨rfl, -⟩ | ⟨-, y, overall, ds, -, -, -, rfl⟩
  · exact .refl state'
  · exact .dualizeAgainst fun p hp => (List.of_mem_zip hp).1

/-- A step touches nothing but the range of its variable and those of the occurrences of that. -/
theorem TighteningStep.changedAt {step : TighteningStep} (h : step.run model state = .ok state') :
    ChangedAt model step.name state state' := by
  cases step with
  | dualize v =>
    obtain ⟨⟨state₁, monotonic⟩, hstep, h⟩ := bind_eq_ok.1 h
    obtain rfl := pure_eq_ok.1 h
    exact .dualize hstep
  | collapse v =>
    cases h
    exact .collapseToMid

/-! ### The range of one variable -/

/-- A variable has a range, and each of its occurrences has the same, with or without exchanged
bounds. -/
structure Held (model : Expr α) (state : WorkingRanges α) (v : String)
    (x : ModalInterval α) : Prop where
  range : state.ranges[v]? = some x
  occurrences : ∀ o ∈ (of model).occurrenceNames v,
    state.occurrences[o]? = some x ∨ state.occurrences[o]? = some x.dual

namespace Held

variable {v : String} {x : ModalInterval α}

omit [Elementary α] in
theorem seed (h : WorkingRanges.seed (of model) ranges = .ok state) (hx : ranges[v]? = some x) :
    Held model state v x where
  range := by rw [WorkingRanges.seed_ranges h, hx]
  occurrences o ho := by
    obtain ⟨htree, rfl⟩ := (mem_occurrenceNames model).1 ho
    rw [WorkingRanges.seed_occurrences h, if_pos htree]
    exact .inl hx

omit [Elementary α] in
theorem changedAt {w : String} (h : Held model state v x) (hw : v ≠ w)
    (hstep : ChangedAt model w state state') :
    Held model state' v x where
  range := by rw [hstep.ranges v hw, h.range]
  occurrences o ho := by
    have hother : o ∉ (of model).occurrenceNames w := fun ho' =>
      hw (((mem_occurrenceNames model).1 ho).2.symm.trans ((mem_occurrenceNames model).1 ho').2)
    rw [hstep.occurrences o hother]
    exact h.occurrences o ho

/-- An exchange that is made twice is undone. -/
theorem dualize {monotonic : Bool} (h : Held model state v x)
    (hstep : state.dualize model (of model) v = .ok (state', monotonic)) :
    Held model state' v x where
  range := by rw [WorkingRanges.dualize_ranges hstep, h.range]
  occurrences o ho := by
    rcases WorkingRanges.dualize_occurrences hstep o with heq | heq
    · rw [heq]
      exact h.occurrences o ho
    · rw [heq]
      rcases h.occurrences o ho with hx | hx
      · exact .inr (by rw [hx]; rfl)
      · exact .inl (by rw [hx]; rfl)

theorem collapseToMid (h : Held model state v x) :
    Held model (state.collapseToMid (of model) v) v (.point x.mid) := by
  rw [WorkingRanges.collapseToMid, h.range]
  constructor
  · exact Std.ExtTreeMap.getElem?_insert_self
  · intro o ho
    rw [getElem?_seedNames, if_pos ho]
    exact .inl rfl

theorem occurrences_of_point {m : α} (h : Held model state v (.point m)) {o : String}
    (ho : o ∈ (of model).occurrenceNames v) : state.occurrences[o]? = some (.point m) := by
  rcases h.occurrences o ho with hx | hx
  · exact hx
  · rw [hx, ModalInterval.dual_point]

end Held

/-! ### Runs of steps -/

/-- What steps keep of a seeded state: the occurrences that have ranges are those of the model, and
each variable of the model has its given range or a single point. -/
structure StepInvariant (model : Expr α) (ranges : Ranges α) (state : WorkingRanges α) : Prop where
  keys : ∀ o : String, o ∈ state.occurrences ↔ o ∈ (of model).tree.variableOccurrences
  held : ∀ v ∈ model.variableOccurrences, ∃ x, Held model state v x ∧
    (ranges[v]? = some x ∨ ∃ m, x = .point m)

namespace StepInvariant

theorem seed (h : WorkingRanges.seed (of model) ranges = .ok seeded) :
    StepInvariant model ranges seeded where
  keys o := by
    rw [Std.ExtTreeMap.mem_iff_isSome_getElem?, WorkingRanges.seed_occurrences h]
    by_cases ho : o ∈ (of model).tree.variableOccurrences
    · simp only [ho, if_true, iff_true]
      exact WorkingRanges.isSome_of_seed h _ (owner_mem model ho)
    · simp [ho]
  held v hv := by
    obtain ⟨x, hx⟩ := Option.isSome_iff_exists.1 (WorkingRanges.isSome_of_seed h v hv)
    exact ⟨x, .seed h hx, .inl hx⟩

theorem keys_of_changedAt {v : String} (h : StepInvariant model ranges state)
    (hstep : ChangedAt model v state state') (o : String) :
    o ∈ state'.occurrences ↔ o ∈ (of model).tree.variableOccurrences := by
  by_cases ho : o ∈ (of model).occurrenceNames v
  · have htree := ((mem_occurrenceNames model).1 ho).1
    have hbefore := Std.ExtTreeMap.mem_iff_isSome_getElem?.1 ((h.keys o).2 htree)
    simp only [htree, iff_true]
    exact Std.ExtTreeMap.mem_iff_isSome_getElem?.2 (hstep.isSome_occurrences o hbefore)
  · rw [Std.ExtTreeMap.mem_iff_isSome_getElem?, hstep.occurrences o ho,
      ← Std.ExtTreeMap.mem_iff_isSome_getElem?, h.keys]

theorem step {step : TighteningStep} (h : StepInvariant model ranges state)
    (hstep : step.run model state = .ok state') : StepInvariant model ranges state' where
  keys := h.keys_of_changedAt (TighteningStep.changedAt hstep)
  held v hv := by
    obtain ⟨x, hx, hgiven⟩ := h.held v hv
    by_cases hname : v = step.name
    · subst hname
      cases step with
      | dualize w =>
        obtain ⟨⟨state₁, monotonic⟩, hdualize, hpure⟩ := bind_eq_ok.1 hstep
        obtain rfl := pure_eq_ok.1 hpure
        exact ⟨x, hx.dualize hdualize, hgiven⟩
      | collapse w =>
        cases hstep
        exact ⟨.point x.mid, hx.collapseToMid, .inr ⟨x.mid, rfl⟩⟩
    · exact ⟨x, hx.changedAt hname (TighteningStep.changedAt hstep), hgiven⟩

theorem runAll {steps : List TighteningStep} (h : StepInvariant model ranges state)
    (hrun : TighteningStep.runAll model state steps = .ok state') :
    StepInvariant model ranges state' := by
  induction steps generalizing state with
  | nil => cases hrun; exact h
  | cons step steps ih =>
    obtain ⟨state₁, hstep, hrun⟩ := bind_eq_ok.1 hrun
    exact ih (h.step hstep) hrun

end StepInvariant

/-- The run that computes a bound is one of steps. -/
theorem exists_steps_of_tighten {approximation : Approximation} {vs : List String}
    (h : tighten approximation model (of model) state vs = .ok state') :
    ∃ steps, TighteningStep.runAll model state steps = .ok state' := by
  induction vs generalizing state with
  | nil => cases h; exact ⟨[], rfl⟩
  | cons v vs ih =>
    obtain ⟨⟨state₁, monotonic⟩, hstep, h⟩ := bind_eq_ok.1 h
    have hrun : (TighteningStep.dualize v).run model state = .ok state₁ :=
      bind_eq_ok.2 ⟨_, hstep, rfl⟩
    obtain ⟨steps, hsteps⟩ := ih h
    split at hsteps
    · exact ⟨.dualize v :: .collapse v :: steps, bind_eq_ok.2 ⟨state₁, hrun, hsteps⟩⟩
    · exact ⟨.dualize v :: steps, bind_eq_ok.2 ⟨state₁, hrun, hsteps⟩⟩

/-- Whatever steps are taken from a seeded state, the occurrences that have ranges stay the same,
and each variable of the model has its given range, with its occurrences that or the dual of it, or
it has a single point together with all its occurrences. A step touches no other variable; `dualize`
leaves the ranges of the variables, changes nothing if it does not find the model monotonic, and
otherwise exchanges the bounds of exactly those occurrences whose slope has another direction than
that of the model. -/
theorem steps_from_seed {steps : List TighteningStep}
    (hseed : WorkingRanges.seed (of model) ranges = .ok seeded)
    (hrun : TighteningStep.runAll model seeded steps = .ok state) :
    (∀ o : String, o ∈ state.occurrences ↔ o ∈ seeded.occurrences) ∧
    (∀ v ∈ model.variableOccurrences, ∃ x, ranges[v]? = some x ∧
      (Held model state v x ∨
        ∃ m, state.ranges[v]? = some (.point m) ∧
          ∀ o ∈ (of model).occurrenceNames v, state.occurrences[o]? = some (.point m))) ∧
    (∀ step state', TighteningStep.run model state step = .ok state' →
      ChangedAt model step.name state state') ∧
    ∀ v state' monotonic, state.dualize model (of model) v = .ok (state', monotonic) →
      state'.ranges = state.ranges ∧
      (monotonic = false → state' = state) ∧
      (monotonic = true → 2 ≤ model.occurrences v →
        ∃ (overall : Direction) (dir : String → Direction), state.Shows model v overall ∧
          ∀ o ∈ (of model).occurrenceNames v, state.Shows (of model).tree o (dir o) ∧
            state'.occurrences[o]? =
              if dir o = overall then state.occurrences[o]?
              else (state.occurrences[o]?).map ModalInterval.dual) := by
  -- one invariant for the keys and for what each variable and its occurrences hold
  have hstart := StepInvariant.seed hseed
  have hreached := hstart.runAll hrun
  refine ⟨fun o => (hreached.keys o).trans (hstart.keys o).symm, fun v hv => ?_,
    fun step state' hstep => TighteningStep.changedAt hstep,
    fun v state' monotonic hstep => ⟨?_, ?_, ?_⟩⟩
  · obtain ⟨R, hR⟩ := Option.isSome_iff_exists.1 (WorkingRanges.isSome_of_seed hseed v hv)
    obtain ⟨x, hx, hgiven | ⟨m, rfl⟩⟩ := hreached.held v hv
    · exact ⟨x, hgiven, .inl hx⟩
    · exact ⟨R, hR, .inr ⟨m, hx.range, fun o ho => hx.occurrences_of_point ho⟩⟩
  · exact WorkingRanges.dualize_ranges hstep
  · rintro rfl
    exact WorkingRanges.eq_of_dualize_eq_false hstep
  · rintro rfl hocc
    rcases WorkingRanges.dualize_cases hstep
      with ⟨-, hone⟩ | ⟨overall, dir, hoverall, hdir, hexchange, -⟩
    · have := hone rfl
      omega
    · exact ⟨overall, dir, hoverall, fun o ho => ⟨hdir o ho, hexchange o ho⟩⟩

end

section
attribute [local instance] RealFunctions.zero

/-- The model `(x * x - x) + y * y`. -/
def squareLessSelfPlusOther : Expr ℚ :=
  .binary .add (.binary .sub (.binary .mul (.ofVariable "x") (.ofVariable "x")) (.ofVariable "x"))
    (.binary .mul (.ofVariable "y") (.ofVariable "y"))

/-- Over `[1, 2]` and `[-1, 1]` the third occurrence of `x` is exchanged, which goes against the
model, and `y` and its occurrences are the point `0`. -/
theorem steps_squareLessSelfPlusOther : ∃ seeded state,
    WorkingRanges.seed (of squareLessSelfPlusOther)
      (((∅ : Ranges ℚ).insert "x" ⟨1, 2⟩).insert "y" ⟨-1, 1⟩) = .ok seeded ∧
    TighteningStep.runAll squareLessSelfPlusOther seeded [.dualize "x", .dualize "y",
      .collapse "y"] = .ok state ∧
    (∀ o : String, o ∈ state.occurrences ↔ o ∈ seeded.occurrences) ∧
    Held squareLessSelfPlusOther state "x" ⟨1, 2⟩ ∧
    ((of squareLessSelfPlusOther).occurrenceNames "x").map (state.occurrences[·]?) =
      [some ⟨1, 2⟩, some ⟨1, 2⟩, some ⟨2, 1⟩] ∧
    state.ranges["y"]? = some (.point 0) ∧
    ∀ o ∈ (of squareLessSelfPlusOther).occurrenceNames "y",
      state.occurrences[o]? = some (.point 0) := by
  have hafter : ((WorkingRanges.seed (of squareLessSelfPlusOther)
      (((∅ : Ranges ℚ).insert "x" ⟨1, 2⟩).insert "y" ⟨-1, 1⟩)).toOption.bind fun seeded =>
        (TighteningStep.runAll squareLessSelfPlusOther seeded
          [.dualize "x", .dualize "y", .collapse "y"]).toOption).map (fun state =>
            (((of squareLessSelfPlusOther).occurrenceNames "x").map (state.occurrences[·]?),
              state.ranges["y"]?)) =
      some ([some ⟨1, 2⟩, some ⟨1, 2⟩, some ⟨2, 1⟩], some (.point 0)) := by decide +kernel
  obtain ⟨state, hbind, hends⟩ := Option.map_eq_some_iff.1 hafter
  obtain ⟨seeded, hseed, hrun⟩ := Option.bind_eq_some_iff.1 hbind
  rw [toOption_eq_some] at hseed hrun
  rw [Prod.mk.injEq] at hends
  obtain ⟨hkeys, hheld, -⟩ := steps_from_seed hseed hrun
  refine ⟨seeded, state, hseed, hrun, hkeys, ?_, hends.1, hends.2, ?_⟩
  · obtain ⟨x, hx, hx' | ⟨m, -, hpoint⟩⟩ := hheld "x" (by decide +kernel)
    · rw [Std.ExtTreeMap.getElem?_insert, if_neg (by decide),
        Std.ExtTreeMap.getElem?_insert_self] at hx
      rwa [← Option.some.inj hx] at hx'
    · -- the occurrences of a collapsed variable have one range
      have hnames : (of squareLessSelfPlusOther).occurrenceNames "x" = ["x_1", "x_2", "x_3"] := by
        decide +kernel
      have hsame := hends.1.symm.trans (List.map_congr_left hpoint)
      rw [hnames] at hsame
      simp only [List.map_cons, List.map_nil, List.cons.injEq, Option.some.injEq] at hsame
      exact absurd (hsame.1.trans hsame.2.2.1.symm) (by decide)
  · obtain ⟨y, -, hy | ⟨m, hm, hpoint⟩⟩ := hheld "y" (by decide +kernel)
    · obtain rfl : y = .point 0 := Option.some.inj (hy.range.symm.trans hends.2)
      exact fun o ho => hy.occurrences_of_point ho
    · rw [← hends.2, hm]
      exact hpoint

end

end ModalBounds
