import Mathlib
import ModalBounds.Proofs.Tightening.Endpoints

/-!
# Enclosures

An outer bound encloses the values of a polynomial model as long as tightening exchanges the bounds
of no occurrence but those that go against the model over the given ranges (`ExchangesAgainst`).
Moving the owners of these occurrences to the end where the model is least moves them to the end
where the occurrence tree is greatest along them, and there the lower bound of its range is below
its value.

For the first variable whose bounds are exchanged a step reads the slopes over the given ranges. For
a later one it takes them over exchanged bounds, and they may have a sign that they do not have over
the given ranges; then the bound is too narrow. If every step finds the directions that the given
ranges show (`DirectionsAsGiven`, which can be decided), only what goes against the model is
exchanged.
-/

namespace ModalBounds

open Set ModalInterval OccurrenceTree

section
variable {model : Expr ℚ} {ranges : Ranges ℚ} {seeded state : WorkingRanges ℚ}

namespace Seeded

variable (hs : Seeded model ranges seeded)

include hs

theorem value_term_tree (τ : String → ℝ) :
    (of model).tree.term.value (fun o => τ ((of model).owner o)) = model.value τ := by
  rw [(isPolynomial_tree hs.isPolynomial).value_term, value_tree_owner]

end Seeded

/-- The occurrence tree goes against `dir` along every exchanged occurrence, and the model goes
along it in the owner of the occurrence. -/
def GoAgainst (model : Expr ℚ) (seeded state : WorkingRanges ℚ) (dir : String → Direction) : Prop :=
  ∀ o ∈ exchanged model seeded state,
    (dir ((of model).owner o)).Along (fun ρ => model.value ρ) (seeded.real model)
      ((of model).owner o) ∧
    (dir ((of model).owner o)).opposite.Along (fun ρ => (of model).tree.value ρ)
      (seeded.real model) o

theorem Tightened.range_eq_exchange (hs : Seeded model ranges seeded) (h : Tightened seeded state) :
    (of model).tree.term.range state.environment.real =
      (of model).tree.term.range
        (Term.exchange (exchanged model seeded state) (seeded.real model)) :=
  Term.range_congr _ fun _ ho =>
    h.environment_real hs ((isPolynomial_tree hs.isPolynomial).names_term ▸ ho)

namespace GoAgainst

variable {dir : String → Direction} (hdir : GoAgainst model seeded state dir)

include hdir

theorem againstOwners (hs : Seeded model ranges seeded) : (of model).tree.term.AgainstOwners
    (of model).owner (seeded.real model) (exchanged model seeded state) dir := by
  intro o _ ho
  rw [funext hs.value_term_tree, funext (isPolynomial_tree hs.isPolynomial).value_term]
  exact hdir o ho

theorem value_mem_range (hs : Seeded model ranges seeded) (h : Tightened seeded state)
    {τ : String → ℝ}
    (hτ : τ ∈ box (seeded.real model)) :
    model.value τ ∈ Icc ((of model).tree.term.range state.environment.real).lower
      ((of model).tree.term.range state.environment.real).upper := by
  have htree := isPolynomial_tree hs.isPolynomial
  have hnodup : (of model).tree.term.names.Nodup :=
    htree.names_term ▸ nodup_variableOccurrences model
  rw [h.range_eq_exchange hs, ← hs.value_term_tree]
  exact Term.value_owner_mem_range_exchange hs.real_proper hnodup hs.real_owner hτ
    (hdir.againstOwners hs)

end GoAgainst

variable [RealFunctions ℚ]

/-- Tightening exchanges the bounds of no occurrence but those that go against the model. -/
def ExchangesAgainst (model : Expr ℚ) (ranges : Ranges ℚ) : Prop :=
  ∀ seeded state, WorkingRanges.seed (of model) ranges = .ok seeded →
    tighten .outer model (of model) seeded (of model).variableNames = .ok state →
    ∃ dir, GoAgainst model seeded state dir

/-- The outer bound of a polynomial over proper ranges encloses its values, where tightening
exchanges only what goes against the model. -/
theorem outerApproximation_encloses {V : Set String} (hmodel : model.IsPolynomial V)
    (hranges : ∀ v ∈ model.variableOccurrences, ∃ x, ranges[v]? = some x ∧ x.lower ≤ x.upper)
    (hagainst : ExchangesAgainst model ranges) :
    ∃ bound, outerApproximation model ranges = .ok bound ∧ ∀ τ : String → ℝ,
      (∀ v ∈ model.variableOccurrences, ∀ x,
        ranges[v]? = some x → τ v ∈ Icc (x.lower : ℝ) x.upper) →
      model.value τ ∈ Icc (bound.toInterval.lower : ℝ) bound.toInterval.upper := by
  classical
  obtain ⟨seeded, hseed⟩ := WorkingRanges.seed_isOk fun v hv => by
    obtain ⟨x, hx, -⟩ := hranges v hv
    rw [hx, Option.isSome_some]
  have hs : Seeded model ranges seeded := ⟨hmodel.of_forall_mem fun _ hv => hv, hranges, hseed⟩
  obtain ⟨state, ht⟩ := (Tightened.refl seeded).exists_tighten hs (of model).variableNames
  have h : Tightened seeded state := (Tightened.refl seeded).tighten ht
  obtain ⟨dir, hdir⟩ := hagainst seeded state hseed ht
  obtain ⟨bound, hbound, hreal⟩ := Tightened.exists_outerApproximation hs ht
  refine ⟨bound, hbound, fun τ hτ => ?_⟩
  -- coordinates that are no variables of the model do not count
  let σ : String → ℝ := fun v => if v ∈ model.variableOccurrences then τ v
    else (seeded.real model v).lower
  have hσ : σ ∈ box (seeded.real model) := by
    refine mem_box.2 fun v => ?_
    by_cases hv : v ∈ model.variableOccurrences
    · obtain ⟨x, hx, -⟩ := hranges v hv
      rw [hs.real_variable hv, hx]
      simpa only [σ, if_pos hv] using! hτ v hv x hx
    · simpa only [σ, if_neg hv] using left_mem_Icc.2 (hs.real_proper v)
  have hvalue : model.value τ = model.value σ := Expr.value_congr fun v hv => (if_pos hv).symm
  have hmem := hdir.value_mem_range hs h hσ
  rw [← hreal, ← hvalue] at hmem
  rw [toInterval, proper_of_le (Rat.cast_le.1 (hmem.1.trans hmem.2))]
  exact hmem

/-- It is enough that the slopes have their directions over the given ranges. -/
theorem goAgainst_of_shows (hs : Seeded model ranges seeded)
    (hshows : ∀ o ∈ exchanged model seeded state, ∃ d, seeded.Shows model ((of model).owner o) d ∧
      seeded.Shows (of model).tree o d.opposite) : ∃ dir, GoAgainst model seeded state dir := by
  obtain ⟨dir, hdir⟩ := seeded.exists_shows model
  refine ⟨dir, fun o ho => ?_⟩
  obtain ⟨d, hmodel, htree⟩ := hshows o ho
  obtain rfl := hdir _ d hmodel
  exact ⟨hs.along_of_shows hmodel, hs.along_tree_of_shows htree⟩

/-! ### Directions that the given ranges show -/

variable {state' : WorkingRanges ℚ} {v : String} {vs : List String}

/-- The directions that the current ranges show along a variable and its occurrences are those over
the ranges that were seeded. -/
def ShowsAsSeeded (model : Expr ℚ) (seeded state : WorkingRanges ℚ) (v : String) : Prop :=
  ∀ d, (state.Shows model v d → seeded.Shows model v d) ∧
    ∀ o ∈ (of model).occurrenceNames v,
      state.Shows (of model).tree o d → seeded.Shows (of model).tree o d

/-- Each step for a repeated variable finds them so. -/
def StepsAsSeeded (model : Expr ℚ) (seeded state : WorkingRanges ℚ) : List String → Prop
  | [] => True
  | v :: vs => (2 ≤ model.occurrences v → ShowsAsSeeded model seeded state v) ∧
      Ends (fun _ => True) (fun r => StepsAsSeeded model seeded r.1 vs)
        (state.dualize model (of model) v)

/-- Every step of the run finds the directions that the given ranges show. -/
def DirectionsAsGiven (model : Expr ℚ) (ranges : Ranges ℚ) : Prop :=
  Ends (fun _ => True) (fun seeded => StepsAsSeeded model seeded seeded (of model).variableNames)
    (WorkingRanges.seed (of model) ranges)

instance : Decidable (ShowsAsSeeded model seeded state v) :=
  decidable_of_iff (∀ d ∈ [Direction.up, .down], (state.Shows model v d → seeded.Shows model v d) ∧
      ∀ o ∈ (of model).occurrenceNames v,
        state.Shows (of model).tree o d → seeded.Shows (of model).tree o d)
    ⟨fun h d => h d (by cases d <;> simp), fun h d _ => h d⟩

instance StepsAsSeeded.decidable : (state : WorkingRanges ℚ) → (vs : List String) →
    Decidable (StepsAsSeeded model seeded state vs)
  | _, [] => .isTrue trivial
  | _, _ :: vs =>
    @instDecidableAnd _ _ inferInstance
      (@Ends.decidable _ _ _ _ (fun _ => .isTrue trivial)
        (fun r : _ × Bool => StepsAsSeeded.decidable r.1 vs) _)

instance (ranges : Ranges ℚ) : Decidable (DirectionsAsGiven model ranges) := by
  unfold DirectionsAsGiven
  infer_instance

theorem stepsAsSeeded_of_occurrences_le_one (hvs : ∀ v ∈ vs, model.occurrences v ≤ 1) :
    StepsAsSeeded model seeded state vs := by
  induction vs with
  | nil => trivial
  | cons v vs ih =>
    rw [List.forall_mem_cons] at hvs
    refine ⟨fun hocc => absurd hvs.1 (by omega), ?_⟩
    rw [dualize_of_occurrences_le_one state hvs.1]
    exact ih hvs.2

theorem stepsAsSeeded_of_unique {x : String} (hvs : vs.Nodup)
    (hone : ∀ v ∈ vs, v ≠ x → model.occurrences v ≤ 1) : StepsAsSeeded model seeded seeded vs := by
  induction vs with
  | nil => trivial
  | cons v vs ih =>
    rw [List.nodup_cons] at hvs
    rw [List.forall_mem_cons] at hone
    by_cases hv : v = x
    · -- the first repeated variable is read off the ranges that were seeded, and no other follows
      refine ⟨fun _ d => ⟨id, fun _ _ => id⟩, ?_⟩
      cases seeded.dualize model (of model) v with
      | error e => trivial
      | ok r =>
        exact stepsAsSeeded_of_occurrences_le_one fun w hw => hone.2 w hw fun h =>
          hvs.1 (hv.trans h.symm ▸ hw)
    · refine ⟨fun hocc => absurd (hone.1 hv) (by omega), ?_⟩
      rw [dualize_of_occurrences_le_one seeded (hone.1 hv)]
      exact ih hvs.2 hone.2

/-- If no variable but one occurs more than once, every step finds the directions that the given
ranges show. -/
theorem directionsAsGiven_of_unique {x : String} {ranges : Ranges ℚ}
    (hone : ∀ v ∈ model.variableOccurrences, v ≠ x → model.occurrences v ≤ 1) :
    DirectionsAsGiven model ranges := by
  rw [DirectionsAsGiven]
  cases WorkingRanges.seed (of model) ranges with
  | error e => trivial
  | ok seeded =>
    exact stepsAsSeeded_of_unique (nodup_keys model) fun v hv => hone v (mem_variableNames_of.1 hv)

/-- What a run exchanges goes against the model, if every step finds the directions of the seeded
ranges. -/
theorem shows_of_exchanged (hsteps : StepsAsSeeded model seeded state vs)
    (ht : tighten .outer model (of model) state vs = .ok state') {o : String}
    (ho : state'.occurrences[o]? ≠ state.occurrences[o]?) :
    ∃ d, seeded.Shows model ((of model).owner o) d ∧ seeded.Shows (of model).tree o d.opposite := by
  induction vs generalizing state with
  | nil => cases ht; exact absurd rfl ho
  | cons v vs ih =>
    rw [Tightened.tighten_cons] at ht
    obtain ⟨⟨state₁, monotonic⟩, hstep, ht⟩ := bind_eq_ok.1 ht
    by_cases hlater : state'.occurrences[o]? = state₁.occurrences[o]?
    · rw [hlater] at ho
      rcases WorkingRanges.dualize_cases hstep
        with ⟨rfl, -⟩ | ⟨overall, dir, hoverall, hdir, hexchange, hkeep⟩
      · exact absurd rfl ho
      · have hov : o ∈ (of model).occurrenceNames v := by
          by_contra hne
          exact ho (hkeep o hne)
        have hocc : 2 ≤ model.occurrences v := by
          by_contra hocc
          rw [dualize_of_occurrences_le_one state (by omega)] at hstep
          cases hstep
          exact ho rfl
        have hd : dir o ≠ overall := fun hd => ho (by rw [hexchange o hov, if_pos hd])
        obtain rfl := ((mem_occurrenceNames model).1 hov).2
        exact ⟨overall, (hsteps.1 hocc overall).1 hoverall,
          Direction.eq_opposite_of_ne hd ▸ (hsteps.1 hocc (dir o)).2 o hov (hdir o hov)⟩
    · exact ih (hsteps.2.of_ok hstep) ht hlater

/-- If every step finds the directions that the given ranges show, only occurrences that go against
the model are exchanged. -/
theorem exchangesAgainst_of_directionsAsGiven {V : Set String} (hmodel : model.IsPolynomial V)
    (hranges : ∀ v ∈ model.variableOccurrences, ∃ x, ranges[v]? = some x ∧ x.lower ≤ x.upper)
    (hgiven : DirectionsAsGiven model ranges) : ExchangesAgainst model ranges := by
  intro seeded state hseed ht
  have hs : Seeded model ranges seeded := ⟨hmodel.of_forall_mem fun _ hv => hv, hranges, hseed⟩
  exact goAgainst_of_shows hs fun o ho => shows_of_exchanged (hgiven.of_ok hseed) ht ho.2

end

section
attribute [local instance] RealFunctions.zero

/-- The model `x * y - x - y`. -/
def productLessFactors : Expr ℚ :=
  .node .sub [.binary .mul (.ofVariable "x") (.ofVariable "y"), .ofVariable "x", .ofVariable "y"]

/-- The second `x` and the second `y` are exchanged, and the bound over `[2, 3]` and `[2, 3]`
encloses the values. -/
theorem outerApproximation_productLessFactors_encloses :
    ∃ bound, outerApproximation productLessFactors
        (((∅ : Ranges ℚ).insert "x" ⟨2, 3⟩).insert "y" ⟨2, 3⟩) = .ok bound ∧
      ∀ s ∈ Icc (2 : ℝ) 3, ∀ t ∈ Icc (2 : ℝ) 3,
        s * t - s - t ∈ Icc (bound.toInterval.lower : ℝ) bound.toInterval.upper := by
  have hvar {v : String} (hv : v = "x" ∨ v = "y") :
      (Expr.ofVariable (α := ℚ) v).IsPolynomial {"x", "y"} :=
    .var hv
  have hmodel : productLessFactors.IsPolynomial {"x", "y"} :=
    .sub (by simp) (by
      simpa using ⟨.mul (by simp) (by simpa using ⟨hvar (.inl rfl), hvar (.inr rfl)⟩),
        hvar (.inl rfl), hvar (.inr rfl)⟩)
  have hx : (((∅ : Ranges ℚ).insert "x" ⟨2, 3⟩).insert "y" ⟨2, 3⟩)["x"]? = some ⟨2, 3⟩ := by
    rw [Std.ExtTreeMap.getElem?_insert, if_neg (by decide), Std.ExtTreeMap.getElem?_insert_self]
  have hy : (((∅ : Ranges ℚ).insert "x" ⟨2, 3⟩).insert "y" ⟨2, 3⟩)["y"]? = some ⟨2, 3⟩ :=
    Std.ExtTreeMap.getElem?_insert_self
  have hnames : ∀ v ∈ productLessFactors.variableOccurrences, v = "x" ∨ v = "y" := by decide +kernel
  have hranges : ∀ v ∈ productLessFactors.variableOccurrences,
      ∃ r, (((∅ : Ranges ℚ).insert "x" ⟨2, 3⟩).insert "y" ⟨2, 3⟩)[v]? = some r ∧
        r.lower ≤ r.upper := by
    intro v hv
    rcases hnames v hv with rfl | rfl
    · exact ⟨_, hx, by norm_num⟩
    · exact ⟨_, hy, by norm_num⟩
  have hagainst := exchangesAgainst_of_directionsAsGiven hmodel hranges (by decide +kernel)
  obtain ⟨bound, hbound, hmem⟩ := outerApproximation_encloses hmodel hranges hagainst
  refine ⟨bound, hbound, fun s hs t ht => ?_⟩
  have hvalue : productLessFactors.value (fun v => if v = "x" then s else t) = s * t - s - t := by
    simp [productLessFactors, Expr.value, Expr.values, Symbol.value, Expr.binary, Expr.ofVariable,
      Expr.weighted]
  rw [← hvalue]
  refine hmem _ fun v hv r hr => ?_
  rcases hnames v hv with rfl | rfl
  · obtain rfl := Option.some.inj (hx.symm.trans hr)
    simpa using hs
  · obtain rfl := Option.some.inj (hy.symm.trans hr)
    simpa using ht

/-- The model `x * (y * z + 2) - 10 * x - 10 * y`. -/
def coupledProduct : Expr ℚ :=
  .node .sub [.binary .mul (.ofVariable "x")
      (.binary .add (.binary .mul (.ofVariable "y") (.ofVariable "z")) (.constant 2)),
    .binary .mul (.constant 10) (.ofVariable "x"), .binary .mul (.constant 10) (.ofVariable "y")]

/-- Over `[0, 1]`, `[0, 1]` and `[-1, 1]` the bound is `[-18, 0]`, but the value at `1`, `1` and
`-1` is `-19`: the slope along the first `y` is taken over an exchanged range of `x`. -/
theorem outerApproximation_coupledProduct :
    ∃ bound, outerApproximation coupledProduct
        ((((∅ : Ranges ℚ).insert "x" ⟨0, 1⟩).insert "y" ⟨0, 1⟩).insert "z" ⟨-1, 1⟩) = .ok bound ∧
      bound.toInterval.lower = -18 ∧ bound.toInterval.upper = 0 ∧
      coupledProduct.value (fun v => if v = "z" then -1 else 1) = -19 := by
  have hrun : (outerApproximation coupledProduct
      ((((∅ : Ranges ℚ).insert "x" ⟨0, 1⟩).insert "y" ⟨0, 1⟩).insert "z" ⟨-1, 1⟩)).toOption.map
        (fun bound => (bound.toInterval.lower, bound.toInterval.upper)) = some (-18, 0) := by
      decide +kernel
  obtain ⟨bound, hbound, hends⟩ := Option.map_eq_some_iff.1 hrun
  rw [Prod.mk.injEq] at hends
  refine ⟨bound, toOption_eq_some.1 hbound, hends.1, hends.2, ?_⟩
  simp [coupledProduct, Expr.value, Expr.values, Symbol.value, Expr.binary, Expr.ofVariable,
    Expr.weighted, Expr.constant]
  norm_num

end

end ModalBounds
