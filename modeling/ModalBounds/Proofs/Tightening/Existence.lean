import Mathlib
import ModalBounds.Proofs.Tightening.Failures

/-!
# When a bound exists

The computation of a bound differentiates along the repeated variables, so it asks more of exponents
than plain evaluation: where a repeated variable occurs below a power, the exponent is an integer
constant that can be lowered by one (`RepeatedPowersLower`). Then it exists if the model can be
evaluated (`approximation_of_evaluate`): what stands in the other exponents are variables that are
not repeated, and their ranges are never changed.
-/

namespace ModalBounds

open OccurrenceTree

variable {α : Type} [Elementary α] {model : Expr α} {ranges : Ranges α}

/-- The exponent of a power with a repeated variable is an integer constant, and an exponent can be
lowered by one. -/
def Expr.RepeatedPowersLower (model : Expr α) : Prop :=
  ∀ v, 2 ≤ model.occurrences v → ∀ f n, .node .power [f, n] ∈ model.preorder →
    (Expr.node .power [f, n]).mentions v →
      ∃ c, n.constantValue? = some c ∧ (Scalar.integer? c).isSome ∧
        (ModalInterval.point (c - 1)).IsExponent

/-- The expressions that may stand in exponents: they have no repeated variables, and over the given
ranges they are integers. -/
def givenExponents (model : Expr α) (ranges : Ranges α) : Set (Expr α) :=
  {n | (∀ w ∈ n.variableOccurrences,
    w ∈ modelNames model ∧ model.occurrences ((of model).owner w) ≤ 1) ∧
    ∃ y, n.interval (ranges.environment ∘ (of model).owner) = .ok y ∧ y.IsExponent}

theorem ends_powerOf_of_mem {state : WorkingRanges α}
    (hstate : Reached model ranges state) {n : Expr α}
    (hn : n ∈ givenExponents model ranges) {x y : ModalInterval α}
    (hy : n.interval state.environment = .ok y) :
    Ends (fun _ => False) (fun _ => True) (Machine.powerOf x y) := by
  obtain ⟨hnames, y', hy', hexp⟩ := hn
  have hsame : n.interval state.environment = n.interval (ranges.environment ∘ (of model).owner) :=
    Expr.interval_congr fun w hw => hstate.kept w (hnames w hw).1 (hnames w hw).2
  rw [hsame, hy'] at hy
  obtain rfl := Except.ok.inj hy
  obtain ⟨z, hz⟩ := exists_powerOf_iff.2 hexp
  rw [hz]
  trivial

theorem constant_mem_givenExponents {c : α} (hc : (ModalInterval.point c).IsExponent) :
    Expr.constant c ∈ givenExponents model ranges := by
  refine ⟨fun w hw => ?_, ModalInterval.point c, rfl, hc⟩
  simp [Expr.constant, Expr.variableOccurrences_node, Expr.variableName?] at hw

omit [Elementary α] in
theorem variableOccurrences_of_constantValue? {V : Set String} {E : Set (Expr α)}
    {n : Expr α} {c : α}
    (h : n.Evaluable V E) (hc : n.constantValue? = some c) : n.variableOccurrences = [] := by
  obtain ⟨s, args⟩ := n
  obtain ⟨op, hop, hacc⟩ := ((Expr.evaluable_node.1 h).1).takes
  cases s with
  | const =>
    cases hop
    obtain rfl : args = [] := by simpa [Opcode.accepts, Expr.operands] using hacc
    rfl
  | _ => cases hc

section
variable {p : Program α} {z : ModalInterval α}

theorem mem_givenExponents (hp : Program.compile model = .ok p)
    (hz : model.interval ranges.environment = .ok z)
    (hlower : model.RepeatedPowersLower) {f n : Expr α}
    (hmem : .node .power [f, n] ∈ model.preorder) : n ∈ givenExponents model ranges := by
  have hmodel := Expr.exists_compile_iff.1 ⟨p, hp⟩
  have hvars {w : String} (hw : w ∈ n.variableOccurrences) :
      w ∈ (Expr.node .power [f, n]).variableOccurrences :=
    Expr.mem_variableOccurrences_of_mem (by simp) hw
  have hmodelVars {w : String} (hw : w ∈ n.variableOccurrences) : w ∈ model.variableOccurrences :=
    (Expr.sublist_variableOccurrences hmem).subset (hvars hw)
  have hn : n.Evaluable {v | v ∈ model.variableOccurrences} Set.univ := fun a ha =>
    hmodel a (Expr.mem_preorder_trans hmem (Expr.mem_preorder_of_mem (by simp) ha))
  obtain ⟨y, hy, hexp⟩ := Expr.isExponent_of_interval hz hmem
  refine ⟨fun w hw => ⟨.inl (hmodelVars hw), ?_⟩, y, ?_, hexp⟩
  · -- a repeated variable would make the exponent a constant
    rw [Reached.owner_of_mem (hmodelVars hw)]
    by_contra hle
    obtain ⟨c, hc, -⟩ := hlower w (by omega) f n hmem ((Expr.mentions_iff _ _).2 (hvars hw))
    rw [variableOccurrences_of_constantValue? hn hc] at hw
    cases hw
  · rw [← hy]
    refine Expr.interval_congr fun w hw => ?_
    rw [Function.comp_apply, Reached.owner_of_mem (hmodelVars hw)]

theorem mem_givenExponents_of_relabel {n : Expr α}
    (hnames : ∀ w ∈ n.variableOccurrences, w ∈ (of model).tree.variableOccurrences)
    (h : n.relabel (of model).owner ∈ givenExponents model ranges) :
    n ∈ givenExponents model ranges := by
  have howner {w : String} (hw : w ∈ n.variableOccurrences) :
      (of model).owner ((of model).owner w) = (of model).owner w :=
    Reached.owner_of_mem (owner_mem model (hnames w hw))
  obtain ⟨hall, y, hy, hexp⟩ := h
  refine ⟨fun w hw => ⟨.inr (hnames w hw), ?_⟩, y, ?_, hexp⟩
  · have hle := (hall ((of model).owner w) (by
      rw [Expr.variableOccurrences_relabel]
      exact List.mem_map_of_mem hw)).2
    rwa [howner hw] at hle
  · rw [Expr.interval_relabel] at hy
    rw [← hy]
    exact Expr.interval_congr fun w hw => by
      rw [Function.comp_apply, Function.comp_apply, Function.comp_apply, howner hw]

theorem tightenable_of_evaluate (hp : Program.compile model = .ok p)
    (hz : model.interval ranges.environment = .ok z) (hlower : model.RepeatedPowersLower) :
    Tightenable (fun _ => False) (givenExponents model ranges) model ranges := by
  have hcompiled := Expr.exists_compile_iff.1 ⟨p, hp⟩
  have hmodel : model.Evaluable {v | v ∈ model.variableOccurrences}
      (givenExponents model ranges) := by
    intro a ha
    refine ⟨(hcompiled a ha).takes, (hcompiled a ha).name_mem, fun hs n hn => ?_⟩
    obtain ⟨s, args⟩ := a
    obtain rfl : s = .power := hs
    obtain ⟨op, hop, hacc⟩ := (hcompiled _ ha).takes
    cases hop
    obtain ⟨f, n', rfl⟩ :=
      List.length_eq_two.1 (by simpa [Opcode.accepts, Expr.operands] using hacc)
    obtain rfl : n = n' := by simpa [Expr.operands] using hn
    exact mem_givenExponents hp hz hlower ha
  constructor
  · exact hmodel.mono fun _ hv => .inl hv
  -- the tree is the model under other names, so its exponents are those of the model
  · have htree := hmodel
    rw [← relabel_owner model] at htree
    have h := htree.of_relabel (W := {o | o ∈ (of model).tree.variableOccurrences})
      (F := givenExponents model ranges) (fun _ hx => hx) fun n hn hmem => by
        rw [relabel_owner] at hmem
        exact mem_givenExponents_of_relabel hn hmem
    exact h.mono fun _ ho => .inr ho
  · intro v hv f n hmem hm
    obtain ⟨c, hc, hint, hexp⟩ := hlower v hv f n hmem hm
    exact .inl ⟨c, hc, hint, constant_mem_givenExponents hexp⟩
  · intro o ho f n hmem hm
    -- with the owners for the occurrences, a power of the tree is one of the model
    have hmem' := List.mem_map_of_mem (f := Expr.relabel (of model).owner) hmem
    rw [← Expr.preorder_relabel, relabel_owner, Expr.relabel_node] at hmem'
    have hm' : (Expr.node .power [f.relabel (of model).owner, n.relabel (of model).owner]).mentions
        ((of model).owner o) := by
      have h := List.mem_map_of_mem (f := (of model).owner) ((Expr.mentions_iff _ _).1 hm)
      rw [← Expr.variableOccurrences_relabel, Expr.relabel_node] at h
      exact (Expr.mentions_iff _ _).2 h
    obtain ⟨c, hc, hint, hexp⟩ := hlower _ ho _ _ hmem' hm'
    rw [Expr.constantValue?_relabel] at hc
    exact .inl ⟨c, hc, hint, constant_mem_givenExponents hexp⟩
  · exact fun state hstate n hn x y hy => ends_powerOf_of_mem hstate hn hy

/-- A run of all steps has taken the slope along each repeated variable. -/
theorem exists_derivative_of_tighten {approximation : Approximation} {k : OccurrenceTree α}
    {state state' : WorkingRanges α} {vs : List String}
    (h : tighten approximation model k state vs = .ok state')
    {v : String} (hv : v ∈ vs) (hlen : 2 ≤ (k.occurrenceNames v).length) :
    ∃ d, model.derivative v = .ok d := by
  induction vs generalizing state with
  | nil => cases hv
  | cons u vs ih =>
    rw [tighten_cons] at h
    obtain ⟨r, hstep, h⟩ := bind_eq_ok.1 h
    rcases List.mem_cons.1 hv with rfl | hv
    · rw [WorkingRanges.dualize_eq, if_neg (by omega)] at hstep
      obtain ⟨y, hy, -⟩ := bind_eq_ok.1 hstep
      obtain ⟨d, hd, -⟩ := bind_eq_ok.1 hy
      exact ⟨d, hd⟩
    · exact ih h hv

/-- If a model can be evaluated, it has a bound, unless a repeated variable occurs in a power whose
exponent is no integer constant that can be lowered by one; if that is no integer constant at all,
the exponent is not supported. -/
theorem approximation_of_evaluate (hp : Program.compile model = .ok p)
    (hz : p.evaluate ranges.environment = .ok z) :
    (model.RepeatedPowersLower →
      (∃ bound, outerApproximation model ranges = .ok bound) ∧
        ∃ bound, innerApproximation model ranges = .ok bound) ∧
    (∀ v f n, 2 ≤ model.occurrences v → .node .power [f, n] ∈ model.preorder →
      (Expr.node .power [f, n]).mentions v → n.constantValue?.bind Scalar.integer? = none →
        (∃ e, outerApproximation model ranges = .error (.unsupportedExponent e)) ∧
          ∃ e, innerApproximation model ranges = .error (.unsupportedExponent e)) := by
  have hranges := Program.isSome_of_run_eq_ok hp hz
  rw [Program.evaluate_eq hp hranges] at hz
  constructor
  · intro hlower
    have hok (approximation : Approximation) : ∃ bound,
        approximate approximation model ranges = .ok bound := by
      obtain ⟨r, hr, -⟩ :=
        ((tightenable_of_evaluate hp hz hlower).ends_approximateNodes approximation
        hranges).exists_ok
      exact ⟨r.1, by rw [approximate_eq_map, hr]; rfl⟩
    exact ⟨hok .outer, hok .inner⟩
  · intro v f n hv hmem hm hnone
    have hfails (approximation : Approximation) :
        ∃ e, approximate approximation model ranges = .error (.unsupportedExponent e) := by
      -- only an unsupported exponent can go wrong, and a bound would take a slope that is not there
      have hends := (tightenable_of_compile hp ranges).ends_approximateNodes approximation hranges
      cases hr : approximateNodes approximation model ranges with
      | ok r =>
        rw [approximateNodes_eq] at hr
        obtain ⟨seeded, -, hr⟩ := bind_eq_ok.1 hr
        obtain ⟨state, ht, -⟩ := bind_eq_ok.1 hr
        have hmodel : v ∈ (of model).variableNames :=
          mem_variableNames_of.2 (Expr.mem_of_two_le_occurrences hv)
        obtain ⟨d, hd⟩ :=
          exists_derivative_of_tighten ht hmodel (by rwa [length_occurrenceNames_of])
        have hsome :=
          Expr.isSome_integer?_of_derivativeAt (Expr.exists_compile_iff.1 ⟨p, hp⟩) hd hmem hm
        rw [hnone] at hsome
        cases hsome
      | error err =>
        rw [hr] at hends
        cases err with
        | unsupportedExponent e => exact ⟨e, by rw [approximate_eq_map, hr]; rfl⟩
        | _ => exact hends.elim
    exact ⟨hfails .outer, hfails .inner⟩

end

theorem exists_evaluate_of_isSome (h : ((Program.compile model).toOption.bind fun p =>
    (p.evaluate ranges.environment).toOption).isSome) :
    ∃ p z, Program.compile model = .ok p ∧ p.evaluate ranges.environment = .ok z := by
  obtain ⟨z, hz⟩ := Option.isSome_iff_exists.1 h
  obtain ⟨p, hp, hz⟩ := Option.bind_eq_some_iff.1 hz
  exact ⟨p, z, toOption_eq_some.1 hp, toOption_eq_some.1 hz⟩

section
attribute [local instance] RealFunctions.zero

/-- The model `x ^ 3 - x * y ^ (1 + 1)`. -/
def cubeLessSelfTimesPower : Expr ℚ :=
  .binary .sub (.binary .power (.ofVariable "x") (.constant 3))
    (.binary .mul (.ofVariable "x")
      (.binary .power (.ofVariable "y") (.binary .add (.constant 1) (.constant 1))))

/-- Over `[0, 1]` and `[0, 2]` there are bounds: the repeated variable is `x`, and its power has the
exponent three. -/
theorem approximation_cubeLessSelfTimesPower :
    (∃ bound, outerApproximation cubeLessSelfTimesPower
        (((∅ : Ranges ℚ).insert "x" ⟨0, 1⟩).insert "y" ⟨0, 2⟩) = .ok bound) ∧
      ∃ bound, innerApproximation cubeLessSelfTimesPower
        (((∅ : Ranges ℚ).insert "x" ⟨0, 1⟩).insert "y" ⟨0, 2⟩) = .ok bound := by
  obtain ⟨p, z, hp, hz⟩ : ∃ p z, Program.compile cubeLessSelfTimesPower = .ok p ∧
      p.evaluate (Ranges.environment (((∅ : Ranges ℚ).insert "x" ⟨0, 1⟩).insert "y" ⟨0, 2⟩)) =
        .ok z :=
    exists_evaluate_of_isSome (by decide +kernel)
  refine (approximation_of_evaluate hp hz).1 ?_
  intro v hv f n hmem hm
  have hv : v = "x" := by
    have hnames : cubeLessSelfTimesPower.variableOccurrences = ["x", "x", "y"] := by decide +kernel
    by_contra hne
    rw [Expr.occurrences, hnames, List.count_cons_of_ne (Ne.symm hne),
      List.count_cons_of_ne (Ne.symm hne)] at hv
    have := List.count_le_length (a := v) (l := ["y"])
    simp at this
    omega
  subst hv
  have hpowers : (cubeLessSelfTimesPower.preorder.filter fun a =>
      a.symbol == .power && a.mentions "x").map
      (·.operands.tail) = [[.constant 3]] := by rfl
  obtain rfl : n = .constant 3 := by
    have hargs : [n] ∈ [[.constant 3]] := by
      rw [← hpowers, List.mem_map]
      exact ⟨_, List.mem_filter.2 ⟨hmem, hm⟩, rfl⟩
    simpa using hargs
  exact ⟨3, rfl, by decide +kernel, by decide +kernel⟩

/-- Over `[0, 1]` the model `x ^ (1 + 1) + x` can be evaluated, but it has no bound. -/
theorem approximation_selfToSumPlusSelf :
    (∃ p z, Program.compile selfToSumPlusSelf = .ok p ∧
      p.evaluate (Ranges.environment ((∅ : Ranges ℚ).insert "x" ⟨0, 1⟩)) = .ok z) ∧
      (∀ bound, outerApproximation selfToSumPlusSelf ((∅ : Ranges ℚ).insert "x" ⟨0, 1⟩) ≠
        .ok bound) ∧
      ∀ bound, innerApproximation selfToSumPlusSelf ((∅ : Ranges ℚ).insert "x" ⟨0, 1⟩) ≠
        .ok bound := by
  have hfails (approximation : Approximation) :
      (approximate approximation selfToSumPlusSelf ((∅ : Ranges ℚ).insert "x" ⟨0, 1⟩)).isOk =
        false := by
    cases approximation <;> decide +kernel
  refine ⟨exists_evaluate_of_isSome (by decide +kernel), fun bound h => ?_, fun bound h => ?_⟩
  · have hno := hfails .outer
    rw [show approximate .outer selfToSumPlusSelf _ = _ from h] at hno
    cases hno
  · have hno := hfails .inner
    rw [show approximate .inner selfToSumPlusSelf _ = _ from h] at hno
    cases hno

end

end ModalBounds
