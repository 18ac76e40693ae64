import Mathlib
import ModalBounds.Proofs.Tightening.Exactness

/-!
# Narrower ranges have narrower bounds

Two runs of one model, the first over ranges that are included in those of the second. What
tightening leaves of the first ranges lies between the bounds of the second (`Tightened.within`), so
where these show a direction the first run finds one too, not always the same: a slope that has
become zero counts as rising. A model that is reported as monotonic over the greater ranges is
therefore so over the smaller ones (`allMonotonic_of_shows`), both bounds are sets of values, and
there are fewer values over smaller ranges.
-/

namespace ModalBounds

open Set ModalInterval OccurrenceTree

/-! ### Slopes between the bounds of another -/

theorem ModalInterval.Within.proper {x y : ModalInterval ℚ} (h : x.Within y) : x.proper ⊆ y := by
  rcases le_or_gt x.lower x.upper with hle | hlt
  · rw [proper_of_le hle]
    exact h.1
  · rw [proper_of_lt hlt]
    exact h.2

theorem exists_direction?_of_within {x y : ModalInterval ℚ} (h : x.Within y) {d : Direction}
    (hd : direction? y = some d) : ∃ d', direction? x = some d' := by
  have hy : y.lower ≤ y.upper := h.1.1.trans h.2.2
  obtain ⟨hlower, hupper⟩ := h.proper
  simp only [direction?, isUndefined, Exact.isNaN_eq, Bool.or_self, Bool.false_eq_true, if_false,
    proper_of_le hy] at hd ⊢
  split_ifs at hd with hup hdown
  · exact ⟨.up, if_pos (hup.trans hlower)⟩
  · split_ifs
    · exact ⟨.up, rfl⟩
    · exact ⟨.down, rfl⟩
    · exact absurd (hupper.trans hdown) ‹_›

theorem ModalInterval.Within.of_toReal {x y : ModalInterval ℚ} (h : x.toReal.Within y.toReal) :
    x.Within y :=
  ⟨⟨Rat.cast_le.1 h.1.1, Rat.cast_le.1 h.1.2⟩, Rat.cast_le.1 h.2.1, Rat.cast_le.1 h.2.2⟩

/-! ### Ranges that are included in others -/

section
variable {model : Expr ℚ} {ranges₁ ranges₂ : Ranges ℚ} {seeded₁ seeded₂ : WorkingRanges ℚ}

/-- Every variable of the model has proper ranges, the first included in the second. -/
def RangesIncluded (model : Expr ℚ) (ranges₁ ranges₂ : Ranges ℚ) : Prop :=
  ∀ v ∈ model.variableOccurrences, ∃ x y, ranges₁[v]? = some x ∧ ranges₂[v]? = some y ∧
    x.isProper = true ∧ x.isSubset y = true

namespace RangesIncluded

variable (h : RangesIncluded model ranges₁ ranges₂)

include h

theorem exists_subset {v : String} (hv : v ∈ model.variableOccurrences) :
    ∃ x y, ranges₁[v]? = some x ∧
    ranges₂[v]? = some y ∧ x.lower ≤ x.upper ∧ x ⊆ y := by
  obtain ⟨x, y, hx, hy, hproper, hsub⟩ := h v hv
  simp only [isSubset, Bool.and_eq_true, decide_eq_true_eq] at hsub
  exact ⟨x, y, hx, hy, of_decide_eq_true hproper, hsub⟩

theorem proper_left :
    ∀ v ∈ model.variableOccurrences, ∃ x, ranges₁[v]? = some x ∧ x.lower ≤ x.upper := by
  intro v hv
  obtain ⟨x, y, hx, -, hle, -⟩ := h.exists_subset hv
  exact ⟨x, hx, hle⟩

theorem proper_right :
    ∀ v ∈ model.variableOccurrences, ∃ y, ranges₂[v]? = some y ∧ y.lower ≤ y.upper := by
  intro v hv
  obtain ⟨x, y, -, hy, hle, hsub⟩ := h.exists_subset hv
  exact ⟨y, hy, hsub.1.trans (hle.trans hsub.2)⟩

theorem points_subset : points model ranges₁ ⊆ points model ranges₂ := by
  intro τ hτ v hv y' hy'
  obtain ⟨x, y, hx, hy, -, hsub⟩ := h.exists_subset hv
  obtain rfl := Option.some.inj (hy.symm.trans hy')
  exact Icc_subset_Icc (Rat.cast_le.2 hsub.1) (Rat.cast_le.2 hsub.2) (hτ v hv x hx)

theorem real_subset (hs₁ : Seeded model ranges₁ seeded₁) (hs₂ : Seeded model ranges₂ seeded₂)
    (v : String) : seeded₁.real model v ⊆ seeded₂.real model v := by
  have hvar {v : String} (hv : v ∈ model.variableOccurrences) :
      seeded₁.real model v ⊆ seeded₂.real model v := by
    obtain ⟨x, y, hx, hy, -, hsub⟩ := h.exists_subset hv
    rw [hs₁.real_variable hv, hs₂.real_variable hv, hx, hy]
    exact ⟨Rat.cast_le.2 hsub.1, Rat.cast_le.2 hsub.2⟩
  by_cases hv : v ∈ model.variableOccurrences
  · exact hvar hv
  · by_cases ho : v ∈ (of model).tree.variableOccurrences
    · rw [hs₁.real_occurrence ho, hs₂.real_occurrence ho]
      exact hvar (owner_mem model ho)
    · rw [WorkingRanges.real, WorkingRanges.real, if_neg (not_or.2 ⟨hv, ho⟩),
        if_neg (not_or.2 ⟨hv, ho⟩)]
      exact Subset.refl _

end RangesIncluded

end

/-! ### Two runs -/

section
variable [RealFunctions ℚ]

theorem WorkingRanges.exists_shows_of_within {state state' : WorkingRanges ℚ}
    {V : Set String} {e : Expr ℚ}
    (he : e.IsPolynomial V) (henv : ∀ v ∈ V, (state.environment v).isSome)
    (henv' : ∀ v ∈ V, (state'.environment v).isSome)
    (hwithin : ∀ v ∈ V, (state.environment.real v).Within (state'.environment.real v)) {v : String}
    {d : Direction} (h : state'.Shows e v d) : ∃ d', state.Shows e v d' := by
  obtain ⟨y', hy', hd⟩ := h
  obtain ⟨f, y, hf, hpoly, hy, hreal⟩ := exists_slope he henv v
  obtain ⟨f', z', hf', -, hz', hreal'⟩ := exists_slope he henv' v
  obtain rfl := Except.ok.inj (hf'.symm.trans hf)
  obtain rfl := Except.ok.inj (hz'.symm.trans hy')
  have hslope : y.toReal.Within z'.toReal := by
    rw [hreal, hreal']
    exact Term.range_within _ fun w hw => hwithin w (hpoly.mem_of_occurs (hpoly.names_term ▸ hw))
  obtain ⟨d', hd'⟩ := exists_direction?_of_within hslope.of_toReal hd
  exact ⟨d', y, hy, hd'⟩

variable {model : Expr ℚ} {ranges₁ ranges₂ : Ranges ℚ} {seeded₁ seeded₂ state : WorkingRanges ℚ}

section
variable (hs₁ : Seeded model ranges₁ seeded₁) (hs₂ : Seeded model ranges₂ seeded₂)
variable (hsub : ∀ v, seeded₁.real model v ⊆ seeded₂.real model v) (h : Tightened seeded₁ state)

include hs₁ hsub h

omit [RealFunctions ℚ] in
/-- What tightening leaves of the first ranges lies between the bounds of the second. -/
theorem Tightened.within {v : String}
    (hv : v ∈ model.variableOccurrences ∨ v ∈ (of model).tree.variableOccurrences) :
    (state.environment.real v).Within (seeded₂.environment.real v) := by
  have hwithin : (seeded₁.real model v).Within (seeded₂.real model v) :=
    .of_subset (hsub v) (hs₁.real_proper v)
  rw [show seeded₂.environment.real v = seeded₂.real model v from (if_pos hv).symm]
  rcases hv with hv | hv
  · rwa [h.environment_real_variable hs₁ v hv]
  · rw [h.environment_real hs₁ hv, Term.exchange]
    split_ifs
    · exact hwithin.dual
    · exact hwithin

include hs₂

theorem Tightened.exists_shows {v : String} {d : Direction} (hd : seeded₂.Shows model v d) :
    ∃ d', state.Shows model v d' :=
  WorkingRanges.exists_shows_of_within hs₁.isPolynomial
    (fun _ hw => h.isSome_environment hs₁ (.inl hw))
    (fun _ hw => (refl seeded₂).isSome_environment hs₂ (.inl hw))
      (fun _ hw => h.within hs₁ hsub (.inl hw)) hd

theorem Tightened.exists_shows_tree {o : String} {d : Direction}
    (hd : seeded₂.Shows (of model).tree o d) : ∃ d', state.Shows (of model).tree o d' :=
  WorkingRanges.exists_shows_of_within (isPolynomial_tree hs₁.isPolynomial)
    (fun _ hw => h.isSome_environment hs₁ (.inr hw))
      (fun _ hw => (refl seeded₂).isSome_environment hs₂ (.inr hw))
    (fun _ hw => h.within hs₁ hsub (.inr hw)) hd

/-- Where the second ranges show all directions, the run over the first reports the model as
monotonic. -/
theorem allMonotonic_of_shows {vs : List String} (hmodel : ∀ v ∈ vs, 2 ≤ model.occurrences v →
      ∃ d, seeded₂.Shows model v d) (htree : ∀ v ∈ vs, 2 ≤ model.occurrences v →
      ∀ o ∈ (of model).occurrenceNames v, ∃ d, seeded₂.Shows (of model).tree o d) :
    allMonotonic model state vs = .ok true := by
  induction vs generalizing state with
  | nil => rfl
  | cons v vs ih =>
    rw [List.forall_mem_cons] at hmodel htree
    obtain ⟨state', hstep⟩ : ∃ state', state.dualize model (of model) v = .ok (state', true) := by
      by_cases hocc : 2 ≤ model.occurrences v
      · obtain ⟨d, hd⟩ := hmodel.1 hocc
        refine WorkingRanges.exists_dualize_of_shows (h.exists_shows hs₁ hs₂ hsub hd) fun o ho => ?_
        obtain ⟨d', hd'⟩ := htree.1 hocc o ho
        exact h.exists_shows_tree hs₁ hs₂ hsub hd'
      · exact ⟨state, dualize_of_occurrences_le_one state (by omega)⟩
    exact bind_eq_ok.2 ⟨_, hstep, bind_eq_ok.2 ⟨true, ih (h.dualize hstep) hmodel.2 htree.2, rfl⟩⟩

end

/-- A model that is reported as monotonic in each variable over some ranges is so over ranges that
these include. -/
theorem reportedAllMonotonic_of_included {V : Set String} (hmodel : model.IsPolynomial V)
    (hincluded : RangesIncluded model ranges₁ ranges₂)
    (hmonotonic : reportedAllMonotonic model ranges₂ = .ok true)
    (hgiven : DirectionsAsGiven model ranges₂) : reportedAllMonotonic model ranges₁ = .ok true := by
  obtain ⟨seeded₁, hs₁⟩ := exists_seeded hmodel hincluded.proper_left
  obtain ⟨seeded₂, hs₂⟩ := exists_seeded hmodel hincluded.proper_right
  obtain ⟨state₂, ht⟩ := (Tightened.refl seeded₂).exists_tighten hs₂ (of model).variableNames
  obtain ⟨overall, dir, hsettled⟩ := exists_allSettled hs₂ hmonotonic hgiven ht
  refine bind_eq_ok.2
    ⟨seeded₁, hs₁.seed, allMonotonic_of_shows hs₁ hs₂ (hincluded.real_subset hs₁ hs₂)
    (.refl seeded₁) (fun v _ hocc => ⟨overall v, hsettled.model_shows v hocc⟩) fun v _ hocc o ho =>
    ?_⟩
  obtain ⟨hmem, rfl⟩ := (mem_occurrenceNames model).1 ho
  exact ⟨dir o, hsettled.tree_shows o ⟨hmem, hocc⟩⟩

/-- The bound of a polynomial is included in its bound over greater ranges, if it is reported as
monotonic in each variable there, and every step of both runs finds the directions that its given
ranges show. -/
theorem outerApproximation_isSubset {V : Set String} (hmodel : model.IsPolynomial V)
    (hincluded : RangesIncluded model ranges₁ ranges₂)
    (hmonotonic : reportedAllMonotonic model ranges₂ = .ok true)
    (hgiven₁ : DirectionsAsGiven model ranges₁) (hgiven₂ : DirectionsAsGiven model ranges₂) :
    ∃ bound₁ bound₂, outerApproximation model ranges₁ = .ok bound₁ ∧
      outerApproximation model ranges₂ = .ok bound₂ ∧
      bound₁.toInterval.isSubset bound₂.toInterval = true := by
  have hmonotonic₁ := reportedAllMonotonic_of_included hmodel hincluded hmonotonic hgiven₂
  obtain ⟨bound₁, hbound₁, hle₁, hvalues₁⟩ :=
    outerApproximation_eq_image hmodel hincluded.proper_left hmonotonic₁ hgiven₁
  obtain ⟨bound₂, hbound₂, hle₂, hvalues₂⟩ :=
    outerApproximation_eq_image hmodel hincluded.proper_right hmonotonic hgiven₂
  have hbounds := calc Icc (bound₁.lower : ℝ) bound₁.upper
      = (fun τ => model.value τ) '' points model ranges₁ := hvalues₁
    _ ⊆ (fun τ => model.value τ) '' points model ranges₂ := image_mono hincluded.points_subset
    _ = Icc (bound₂.lower : ℝ) bound₂.upper := hvalues₂.symm
  rw [Icc_subset_Icc_iff (Rat.cast_le.2 hle₁), Rat.cast_le, Rat.cast_le] at hbounds
  refine ⟨bound₁, bound₂, hbound₁, hbound₂, ?_⟩
  rw [toInterval, toInterval, proper_of_le hle₁, proper_of_le hle₂]
  simpa only [Interval.isSubset, Interval.contains, Bool.and_eq_true, decide_eq_true_eq]
    using hbounds

end

section
attribute [local instance] RealFunctions.zero

/-- The bound over `[2, 5/2]` and `[5/2, 3]` is `[1/2, 2]`, and the one over `[2, 3]` and `[2, 3]`
is `[0, 3]`. -/
theorem outerApproximation_productLessFactors :
    ∃ bound₁ bound₂,
      outerApproximation productLessFactors
        (((∅ : Ranges ℚ).insert "x" ⟨2, 5 / 2⟩).insert "y" ⟨5 / 2, 3⟩) =
        .ok bound₁ ∧
      outerApproximation productLessFactors (((∅ : Ranges ℚ).insert "x" ⟨2, 3⟩).insert "y" ⟨2, 3⟩) =
        .ok bound₂ ∧
      bound₁.lower = 1 / 2 ∧ bound₁.upper = 2 ∧ bound₂.lower = 0 ∧ bound₂.upper = 3 ∧
      bound₁.toInterval.isSubset bound₂.toInterval = true := by
  have hvar {v : String} (hv : v = "x" ∨ v = "y") :
      (Expr.ofVariable (α := ℚ) v).IsPolynomial {"x", "y"} :=
    .var hv
  have hmodel : productLessFactors.IsPolynomial {"x", "y"} :=
    .sub (by simp) (by
      simpa using ⟨.mul (by simp) (by simpa using ⟨hvar (.inl rfl), hvar (.inr rfl)⟩),
        hvar (.inl rfl), hvar (.inr rfl)⟩)
  have hnames : productLessFactors.variableOccurrences = ["x", "y", "x", "y"] := by decide +kernel
  have hincluded : RangesIncluded productLessFactors
      (((∅ : Ranges ℚ).insert "x" ⟨2, 5 / 2⟩).insert "y" ⟨5 / 2, 3⟩)
      (((∅ : Ranges ℚ).insert "x" ⟨2, 3⟩).insert "y" ⟨2, 3⟩) := by
    intro v hv
    rw [hnames] at hv
    obtain rfl | rfl : v = "x" ∨ v = "y" := by simp at hv; tauto
    · exact ⟨⟨2, 5 / 2⟩, ⟨2, 3⟩,
        by
      simp [Std.ExtTreeMap.getElem_insert], by
        simp [Std.ExtTreeMap.getElem_insert], by decide +kernel, by decide +kernel⟩
    · exact ⟨⟨5 / 2, 3⟩, ⟨2, 3⟩, by simp, by simp, by decide +kernel, by decide +kernel⟩
  have hmonotonic := toOption_eq_some.1 (show (reportedAllMonotonic productLessFactors
    (((∅ : Ranges ℚ).insert "x" ⟨2, 3⟩).insert "y" ⟨2, 3⟩)).toOption = some true by decide +kernel)
  obtain ⟨bound₁, bound₂, hbound₁, hbound₂, hsub⟩ :=
    outerApproximation_isSubset hmodel hincluded hmonotonic (by decide +kernel) (by decide +kernel)
  have hends₁ : (outerApproximation productLessFactors
      (((∅ : Ranges ℚ).insert "x" ⟨2, 5 / 2⟩).insert "y" ⟨5 / 2, 3⟩)).toOption.map
        (fun bound => (bound.lower, bound.upper)) = some (1 / 2, 2) := by decide +kernel
  have hends₂ : (outerApproximation productLessFactors
      (((∅ : Ranges ℚ).insert "x" ⟨2, 3⟩).insert "y" ⟨2, 3⟩)).toOption.map
        (fun bound => (bound.lower, bound.upper)) = some (0, 3) := by decide +kernel
  rw [toOption_eq_some.2 hbound₁, Option.map_some, Option.some_inj, Prod.mk.injEq] at hends₁
  rw [toOption_eq_some.2 hbound₂, Option.map_some, Option.some_inj, Prod.mk.injEq] at hends₂
  exact ⟨bound₁, bound₂, hbound₁, hbound₂, hends₁.1, hends₁.2, hends₂.1, hends₂.2, hsub⟩

/-- Over `[0, 1]`, `[0, 1]` and `[-1, 1]` the model `x * (y * z + 2) - 10 * x - 10 * y` is reported
as monotonic in each variable, but its bound `[-18, 0]` does not include the one over `1`, `1` and
`-1`. -/
theorem outerApproximation_coupledProduct_not_isSubset :
    RangesIncluded coupledProduct
        ((((∅ : Ranges ℚ).insert "x" ⟨1, 1⟩).insert "y" ⟨1, 1⟩).insert "z" ⟨-1, -1⟩)
        ((((∅ : Ranges ℚ).insert "x" ⟨0, 1⟩).insert "y" ⟨0, 1⟩).insert "z" ⟨-1, 1⟩) ∧
      reportedAllMonotonic coupledProduct
        ((((∅ : Ranges ℚ).insert "x" ⟨0, 1⟩).insert "y" ⟨0, 1⟩).insert "z" ⟨-1, 1⟩) = .ok true ∧
      ∃ bound₁ bound₂,
        outerApproximation coupledProduct
          ((((∅ : Ranges ℚ).insert "x" ⟨1, 1⟩).insert "y" ⟨1, 1⟩).insert "z" ⟨-1, -1⟩) =
            .ok bound₁ ∧
        outerApproximation coupledProduct
          ((((∅ : Ranges ℚ).insert "x" ⟨0, 1⟩).insert "y" ⟨0, 1⟩).insert "z" ⟨-1, 1⟩) = .ok bound₂ ∧
        bound₁.toInterval.isSubset bound₂.toInterval = false := by
  have hnames : coupledProduct.variableOccurrences = ["x", "y", "z", "x", "y"] := by decide +kernel
  have hruns : ((outerApproximation coupledProduct
      ((((∅ : Ranges ℚ).insert "x" ⟨1, 1⟩).insert "y" ⟨1, 1⟩).insert "z" ⟨-1, -1⟩)).toOption.bind
        fun bound₁ =>
        (outerApproximation coupledProduct
          ((((∅ : Ranges ℚ).insert "x" ⟨0, 1⟩).insert "y" ⟨0, 1⟩).insert "z" ⟨-1, 1⟩)).toOption.map
            fun bound₂ =>
            bound₁.toInterval.isSubset bound₂.toInterval) = some false := by decide +kernel
  obtain ⟨bound₁, hbound₁, hruns⟩ := Option.bind_eq_some_iff.1 hruns
  obtain ⟨bound₂, hbound₂, hsub⟩ := Option.map_eq_some_iff.1 hruns
  refine ⟨fun v hv => ?_, toOption_eq_some.1 (by decide +kernel), bound₁, bound₂,
    toOption_eq_some.1 hbound₁, toOption_eq_some.1 hbound₂, hsub⟩
  rw [hnames] at hv
  obtain rfl | rfl | rfl : v = "x" ∨ v = "y" ∨ v = "z" := by simp at hv; tauto
  · exact ⟨⟨1, 1⟩, ⟨0, 1⟩,
      by
    simp [Std.ExtTreeMap.getElem_insert], by
      simp [Std.ExtTreeMap.getElem_insert], by decide +kernel, by decide +kernel⟩
  · exact ⟨⟨1, 1⟩, ⟨0, 1⟩,
      by
    simp [Std.ExtTreeMap.getElem_insert], by
      simp [Std.ExtTreeMap.getElem_insert], by decide +kernel, by decide +kernel⟩
  · exact ⟨⟨-1, -1⟩, ⟨-1, 1⟩, by simp, by simp, by decide +kernel, by decide +kernel⟩

end

end ModalBounds
