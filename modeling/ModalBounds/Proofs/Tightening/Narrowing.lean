import Mathlib
import ModalBounds.Proofs.Evaluation.Inclusion
import ModalBounds.Proofs.Evaluation.Success
import ModalBounds.Proofs.Tightening.Ranges

/-!
# Tightening never loosens

Whatever the slopes are, a tightening step exchanges the bounds of an occurrence or collapses ranges
to the middle of one. Both keep every range between the bounds that its variable was given
(`Narrowed`), so by isotone evaluation the bound is included in the interval of the model over the
given ranges (`approximation_isSubset_evaluate`).
-/

namespace ModalBounds

open ModalInterval OccurrenceTree Extended

/-! ### Ranges between given bounds -/

theorem ModalInterval.Within.mid {K : Type} [Field K] [LinearOrder K] [FloorRing K]
    [IsStrictOrderedRing K]
    {x y : ModalInterval K} (h : y.Within x) : (⟨y.mid, y.mid⟩ : ModalInterval K).Within x := by
  obtain ⟨⟨hl, hu⟩, hl', hu'⟩ := h
  rw [dual_lower] at hl'
  rw [dual_upper] at hu'
  have hmid : y.mid = (y.lower + y.upper) / 2 :=
    congrArg (_ / ·) (Nat.cast_ofNat : ((2 : ℕ) : K) = 2)
  have hlower : x.lower ≤ y.mid := by rw [hmid]; linarith
  have hupper : y.mid ≤ x.upper := by rw [hmid]; linarith
  exact ⟨⟨hlower, hupper⟩, hlower, hupper⟩

section
variable {K : Type} [Field K] [LinearOrder K]

/-- The ranges of the variables and of their occurrences lie within those that the variables were
given. -/
structure Narrowed (model : Expr (Extended (0 : K))) (given : String → ModalInterval K)
    (state : WorkingRanges (Extended (0 : K))) : Prop where
  ranges : ∀ v ∈ model.variableOccurrences, ∃ y : ModalInterval K,
    state.ranges[v]? = some y.extend ∧ y.Within (given v)
  occurrences : ∀ o ∈ (of model).tree.variableOccurrences, ∃ y : ModalInterval K,
    state.occurrences[o]? = some y.extend ∧ y.Within (given ((of model).owner o))

namespace Narrowed

variable {model : Expr (Extended (0 : K))} {given : String → ModalInterval K}
variable {state state' : WorkingRanges (Extended (0 : K))}

theorem seed {ranges : Ranges (Extended (0 : K))} (hgiven : ∀ v ∈ model.variableOccurrences,
      ranges[v]? = some (given v).extend ∧ (given v).lower ≤ (given v).upper)
    (h : WorkingRanges.seed (of model) ranges = .ok state) : Narrowed model given state := by
  constructor
  · intro v hv
    rw [WorkingRanges.seed_ranges h]
    exact ⟨given v, (hgiven v hv).1, .refl (hgiven v hv).2⟩
  · intro o ho
    have howner := hgiven _ (owner_mem model ho)
    rw [WorkingRanges.seed_occurrences h, if_pos ho]
    exact ⟨given _, howner.1, .refl howner.2⟩

theorem dualizeName (h : Narrowed model given state) (name : String) :
    Narrowed model given (state.dualizeName name) := by
  refine ⟨h.ranges, fun o ho => ?_⟩
  obtain ⟨y, hy, hwithin⟩ := h.occurrences o ho
  rw [WorkingRanges.dualizeName_occurrences, hy]
  by_cases hname : o = name
  · rw [if_pos hname]
    exact ⟨y.dual, rfl, hwithin.dual⟩
  · rw [if_neg hname]
    exact ⟨y, rfl, hwithin⟩

theorem dualizeAgainst (h : Narrowed model given state) (overall : Direction)
    (l : List (String × Direction)) : Narrowed model given (state.dualizeAgainst overall l) := by
  induction l generalizing state with
  | nil => exact h
  | cons p l ih =>
    rw [WorkingRanges.dualizeAgainst]
    split
    · exact ih h
    · exact ih (h.dualizeName p.1)

variable [FloorRing K] [RealFunctions K]

theorem dualize (h : Narrowed model given state) {v : String} {monotonic : Bool}
    (hstep : state.dualize model (of model) v = .ok (state', monotonic)) :
    Narrowed model given state' := by
  rcases WorkingRanges.dualize_eq_ok hstep with ⟨rfl, -⟩ | ⟨-, y, overall, ds, -, -, -, rfl⟩
  · exact h
  · exact h.dualizeAgainst overall _

variable [IsStrictOrderedRing K]

omit [RealFunctions K] in
theorem collapseToMid (h : Narrowed model given state) (v : String) :
    Narrowed model given (state.collapseToMid (of model) v) := by
  rw [WorkingRanges.collapseToMid]
  split
  · exact h
  · rename_i range hrange
    -- the middle of the range of `v` lies where `v` was given
    have hmiddle (hv : v ∈ model.variableOccurrences) :
        ∃ y : ModalInterval K, ModalInterval.point range.mid = y.extend ∧ y.Within (given v) := by
      obtain ⟨y, hy, hwithin⟩ := h.ranges v hv
      obtain rfl := Option.some.inj (hrange.symm.trans hy)
      exact ⟨⟨y.mid, y.mid⟩, by rw [mid_extend, point_finite], hwithin.mid⟩
    constructor
    · intro w hw
      rw [Std.ExtTreeMap.getElem?_insert]
      by_cases hvw : v = w
      · subst hvw
        obtain ⟨y, hy, hwithin⟩ := hmiddle hw
        exact ⟨y, by simp [hy], hwithin⟩
      · rw [if_neg (by simpa using hvw)]
        exact h.ranges w hw
    · intro o ho
      rw [getElem?_seedNames]
      by_cases hov : o ∈ (of model).occurrenceNames v
      · obtain rfl := ((mem_occurrenceNames model).1 hov).2
        obtain ⟨y, hy, hwithin⟩ := hmiddle (owner_mem model ho)
        exact ⟨y, by rw [if_pos hov, hy], hwithin⟩
      · rw [if_neg hov]
        exact h.occurrences o ho

theorem tighten {approximation : Approximation} {vs : List String} (h : Narrowed model given state)
    (ht : ModalBounds.tighten approximation model (of model) state vs = .ok state') :
    Narrowed model given state' := by
  induction vs generalizing state with
  | nil => cases ht; exact h
  | cons v vs ih =>
    rw [tighten_cons] at ht
    obtain ⟨⟨state₁, monotonic⟩, hstep, ht⟩ := bind_eq_ok.1 ht
    have h₁ : Narrowed model given state₁ := h.dualize hstep
    refine ih ?_ ht
    split
    · exact h₁.collapseToMid v
    · exact h₁

end Narrowed

end

/-! ### The bound and the plain evaluation -/

/-- The occurrence tree over narrowed ranges has an interval that is included in that of the model
over the given ranges. -/
theorem Narrowed.interval_included {K : Type} [Field K] [LinearOrder K] [FloorRing K]
    [IsStrictOrderedRing K]
    [RealFunctions K] {e : Expr K} (he : e.IsRational) (hdiv : e.DivisionFree)
    {given : String → ModalInterval K}
    {ranges : Ranges (Extended (0 : K))} {state : WorkingRanges (Extended (0 : K))}
    (hgiven : ∀ v ∈ e.variableOccurrences, ranges[v]? = some (given v).extend)
    (h : Narrowed (e.map finite) given state) {bound : ModalInterval (Extended (0 : K))}
    (hbound : (of (e.map finite)).tree.interval state.environment = .ok bound) :
    ∃ plain, (e.map finite).interval ranges.environment = .ok plain ∧ Included bound plain := by
  have howner : (of (e.map (finite : K → Extended (0 : K)))).owner = (of e).owner := by
    funext o
    rw [owner, owner, Expr.names_of_map]
  have htree := relabel_owner e
  have hrational : (of e).tree.IsRational := .of_relabel (of e).owner (htree.symm ▸ he)
  have hfree : ((of e).tree.map (finite : K → Extended (0 : K))).DivisionFree :=
    (Expr.DivisionFree.of_relabel (htree.symm ▸ hdiv)).map finite
  -- an occurrence has a range within the one that its owner was given
  have henv : ∀ o ∈ (of e).tree.variableOccurrences, ∃ x y, state.environment o = some x ∧
      (ranges.environment ∘ (of e).owner) o = some y ∧ Included x y := by
    intro o ho
    obtain ⟨y, hy, hwithin⟩ :=
      h.occurrences o (by rwa [Expr.tree_of_map, Expr.variableOccurrences_map])
    rw [howner] at hwithin
    refine ⟨y.extend, (given _).extend, ?_, hgiven _ (owner_mem e ho), y, given _, rfl,
      rfl, hwithin.1⟩
    show (state.occurrences[o]?).or (state.ranges[o]?) = _
    rw [hy, Option.some_or]
  rw [Expr.tree_of_map] at hbound
  have hfit : (of e).tree.ExponentsFit := Expr.exponentsFit_of_interval_eq_ok hbound
  obtain ⟨x, y, hx, hy, hxy⟩ := hrational.interval_included
    ⟨⟨hfit, hfree.divisorsExcludeZero⟩, ⟨hfit, hfree.divisorsExcludeZero⟩, henv⟩
  obtain rfl := Except.ok.inj (hx.symm.trans hbound)
  have hplain := Expr.interval_relabel.2 hy
  rw [← Expr.tree_of_map, ← howner, relabel_owner] at hplain
  exact ⟨y, hplain, hxy⟩

section
variable [RealFunctions ℚ]

/-- A bound of a rational model without quotients over proper ranges, outer or inner, is included in
the interval that the model evaluates to over these ranges. -/
theorem approximation_isSubset_evaluate {e : Expr ℚ} (he : e.IsRational) (hdiv : e.DivisionFree)
    {ranges : Ranges (Extended (0 : ℚ))} (hranges : ∀ v ∈ e.variableOccurrences,
      ∃ x, ranges[v]? = some x ∧ x.isFinite = true ∧ x.isProper = true)
    {bound : ModalInterval (Extended (0 : ℚ))}
    (h : outerApproximation (e.map finite) ranges = .ok bound ∨
      innerApproximation (e.map finite) ranges = .ok bound) :
    ∃ p plain, Program.compile (e.map finite) = .ok p ∧ p.evaluate ranges.environment = .ok plain ∧
      bound.isSubset plain = true := by
  classical
  obtain ⟨a, h⟩ : ∃ a, approximate a (e.map finite) ranges = .ok bound := h.elim (⟨_, ·⟩) (⟨_, ·⟩)
  rw [approximate_eq] at h
  obtain ⟨seeded, hseed, h⟩ := bind_eq_ok.1 h
  obtain ⟨state, htighten, h⟩ := bind_eq_ok.1 h
  obtain ⟨p, hp, hrun⟩ := bind_eq_ok.1 h
  -- what the variables were given, and that the state is within
  have hgiven : ∀ v, ∃ x : ModalInterval ℚ,
      v ∈ (e.map (finite : ℚ → Extended (0 : ℚ))).variableOccurrences →
      ranges[v]? = some x.extend ∧ x.lower ≤ x.upper := by
    intro v
    by_cases hv : v ∈ e.variableOccurrences
    · obtain ⟨x, hx, hfinite, hproper⟩ := hranges v hv
      obtain ⟨y, rfl⟩ := ModalInterval.isFinite_iff.1 hfinite
      exact ⟨y, fun _ => ⟨hx, isProper_extend.1 hproper⟩⟩
    · exact ⟨⟨0, 0⟩, fun h => absurd (Expr.variableOccurrences_map finite e ▸ h) hv⟩
  choose given hgiven using hgiven
  have hnarrowed : Narrowed (e.map finite) given state :=
    (Narrowed.seed hgiven hseed).tighten htighten
  have hbound : (of (e.map finite)).tree.interval state.environment = .ok bound := by
    rw [← Program.evaluate_eq hp (Program.isSome_of_run_eq_ok hp hrun)]
    exact hrun
  obtain ⟨plain, hplain, hincluded⟩ := Narrowed.interval_included he hdiv
    (fun v hv => (hgiven v (Expr.variableOccurrences_map finite e ▸ hv)).1) hnarrowed hbound
  obtain ⟨q, hq⟩ := he.exists_compile (finite : ℚ → Extended (0 : ℚ))
  refine ⟨q, plain, hq, ?_, (Included.iff.1 hincluded).2.2⟩
  rw [Program.evaluate_eq hq fun v hv => ?_, hplain]
  obtain ⟨x, hx, -⟩ := hranges v (Expr.variableOccurrences_map finite e ▸ hv)
  show (ranges[v]?).isSome
  rw [hx, Option.isSome_some]

end

section
attribute [local instance] RealFunctions.zero

/-- The model `|x| * x - x`. -/
def magnitudeTimesSelfLessSelf : Expr ℚ :=
  .binary .sub (.binary .mul (.unary .abs (.ofVariable "x")) (.ofVariable "x")) (.ofVariable "x")

/-- Its outer bound over `[1, 3]` is `[0, 6]`, and the interval that it evaluates to includes
that. -/
theorem outerApproximation_magnitudeTimesSelfLessSelf :
    ∃ bound p plain,
      outerApproximation (magnitudeTimesSelfLessSelf.map finite)
        ((∅ : Ranges (Extended (0 : ℚ))).insert "x" (extend ⟨1, 3⟩)) = .ok bound ∧
      Program.compile (magnitudeTimesSelfLessSelf.map finite) = .ok p ∧
      p.evaluate (Ranges.environment ((∅ : Ranges (Extended (0 : ℚ))).insert "x" (extend ⟨1, 3⟩))) =
        .ok plain ∧
      bound.lower = finite 0 ∧ bound.upper = finite 6 ∧ bound.isSubset plain = true := by
  have hmodel : magnitudeTimesSelfLessSelf.IsRational :=
    .sub (by simp) (by
      simpa using ⟨.mul (by simp) (by simpa using ⟨.abs (.var "x" 1), .var "x" 1⟩), .var "x" 1⟩)
  have hdiv : magnitudeTimesSelfLessSelf.DivisionFree := by
    intro args h
    simp [magnitudeTimesSelfLessSelf, Expr.binary, Expr.unary, Expr.ofVariable, Expr.weighted,
      Expr.preorder_node] at h
  have hnames : magnitudeTimesSelfLessSelf.variableOccurrences = ["x", "x", "x"] := by
    decide +kernel
  have hranges : ∀ v ∈ magnitudeTimesSelfLessSelf.variableOccurrences,
      ∃ x, ((∅ : Ranges (Extended (0 : ℚ))).insert "x" (extend ⟨1, 3⟩))[v]? = some x ∧
        x.isFinite = true ∧
        x.isProper = true := by
    intro v hv
    rw [hnames] at hv
    obtain rfl : v = "x" := by simpa using hv
    exact ⟨_, Std.ExtTreeMap.getElem?_insert_self, rfl, by decide +kernel⟩
  have hrun : (outerApproximation (magnitudeTimesSelfLessSelf.map finite)
      ((∅ : Ranges (Extended (0 : ℚ))).insert "x" (extend ⟨1, 3⟩))).toOption.map
        (fun bound => (bound.lower, bound.upper)) = some (finite 0, finite 6) := by decide +kernel
  obtain ⟨bound, hbound, hends⟩ := Option.map_eq_some_iff.1 hrun
  rw [Prod.mk.injEq] at hends
  rw [toOption_eq_some] at hbound
  obtain ⟨p, plain, hp, hplain, hsub⟩ :=
    approximation_isSubset_evaluate hmodel hdiv hranges (.inl hbound)
  exact ⟨bound, p, plain, hbound, hp, hplain, hends.1, hends.2, hsub⟩

end

end ModalBounds
