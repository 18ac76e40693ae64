import Mathlib
import ModalBounds.Proofs.Tightening.Enclosure

/-!
# Exact bounds of models that are monotonic in every repeated variable

If each step of a run finds the directions that the given ranges show (`DirectionsAsGiven`), and
reports the model as monotonic, then along every repeated variable exactly those occurrences are
exchanged that go against the model (`Settled`, by induction over the steps). Repeated variables
then pull the occurrence tree to the values at their ends, and the others occur once, so the bound
is the set of values of the model over the given ranges (`outerApproximation_eq_image`).
-/

namespace ModalBounds

open Set ModalInterval OccurrenceTree

section
variable [RealFunctions ℚ]

/-! ### What a run reports -/

/-- Whether all steps of a run report the model as monotonic. -/
def allMonotonic (model : Expr ℚ) (state : WorkingRanges ℚ) :
    List String → Except (ModelError ℚ) Bool
  | [] => .ok true
  | v :: vs => do
    let (state, monotonic) ← state.dualize model (of model) v
    let rest ← allMonotonic model state vs
    return monotonic && rest

def reportedAllMonotonic (model : Expr ℚ) (ranges : Ranges ℚ) : Except (ModelError ℚ) Bool := do
  let seeded ← WorkingRanges.seed (of model) ranges
  allMonotonic model seeded (of model).variableNames

section
variable {model : Expr ℚ} {seeded state state' : WorkingRanges ℚ} {v : String} {vs : List String}

/-! ### What a run leaves -/

/-- Along `v` the seeded ranges show directions, and exactly the occurrences that go against the
model are exchanged. -/
def Settled (model : Expr ℚ) (seeded state : WorkingRanges ℚ) (v : String) : Prop :=
  ∃ (overall : Direction) (dir : String → Direction), seeded.Shows model v overall ∧
    ∀ o ∈ (of model).occurrenceNames v, seeded.Shows (of model).tree o (dir o) ∧
      state.occurrences[o]? =
        if dir o = overall then seeded.occurrences[o]? else (seeded.occurrences[o]?).map dual

omit [RealFunctions ℚ] in
/-- The occurrences of `v` have the same ranges in both states. -/
def Kept (model : Expr ℚ) (state state' : WorkingRanges ℚ) (v : String) : Prop :=
  ∀ o ∈ (of model).occurrenceNames v, state'.occurrences[o]? = state.occurrences[o]?

omit [RealFunctions ℚ] in
theorem Kept.trans {s s' s'' : WorkingRanges ℚ} (h : Kept model s s' v) (h' : Kept model s' s'' v) :
    Kept model s s'' v :=
  fun o ho => (h' o ho).trans (h o ho)

theorem Settled.kept (h : Settled model seeded state v) (hkept : Kept model state state' v) :
    Settled model seeded state' v := by
  obtain ⟨overall, dir, hoverall, hall⟩ := h
  exact ⟨overall, dir, hoverall, fun o ho => ⟨(hall o ho).1, (hkept o ho).trans (hall o ho).2⟩⟩

theorem kept_of_dualize {monotonic : Bool}
    (hstep : state.dualize model (of model) v = .ok (state', monotonic))
    {w : String} (hw : w ≠ v ∨ model.occurrences w ≤ 1) : Kept model state state' w := by
  intro o ho
  by_cases hv : w = v
  · rw [dualize_of_occurrences_le_one state (hv ▸ hw.resolve_left (not_not.2 hv))] at hstep
    cases hstep
    rfl
  · rcases WorkingRanges.dualize_cases hstep with ⟨rfl, -⟩ | ⟨-, -, -, -, -, hkeep⟩
    · rfl
    · refine hkeep o fun hov => hv ?_
      rw [← ((mem_occurrenceNames model).1 ho).2, ((mem_occurrenceNames model).1 hov).2]

theorem settled_of_dualize (hstep : state.dualize model (of model) v = .ok (state', true))
    (hocc : 2 ≤ model.occurrences v) (hkept : Kept model seeded state v)
    (hseeded : ShowsAsSeeded model seeded state v) : Settled model seeded state' v := by
  obtain ⟨overall, dir, hoverall, hdir, hexchange, -⟩ :=
    (WorkingRanges.dualize_cases hstep).resolve_left
    fun h => absurd (h.2 rfl) (by omega)
  refine ⟨overall, dir, (hseeded _).1 hoverall, fun o ho => ⟨(hseeded _).2 o ho (hdir o ho), ?_⟩⟩
  rw [hexchange o ho, hkept o ho]

theorem kept_of_tighten (ht : tighten .outer model (of model) state vs = .ok state') {w : String}
    (hw : w ∉ vs ∨ model.occurrences w ≤ 1) : Kept model state state' w := by
  induction vs generalizing state with
  | nil =>
    cases ht
    exact fun o _ => rfl
  | cons v vs ih =>
    rw [Tightened.tighten_cons] at ht
    obtain ⟨⟨state₁, monotonic⟩, hstep, ht⟩ := bind_eq_ok.1 ht
    have h₁ : Kept model state state₁ w :=
      kept_of_dualize hstep (hw.imp_left List.ne_of_not_mem_cons)
    exact h₁.trans (ih ht (hw.imp_left List.not_mem_of_not_mem_cons))

/-- A run that reports the model as monotonic settles every repeated variable. -/
theorem settled_of_tighten (hvs : vs.Nodup) (hkept : ∀ v ∈ vs, Kept model seeded state v)
    (hsteps : StepsAsSeeded model seeded state vs)
    (hreports : allMonotonic model state vs = .ok true)
    (ht : tighten .outer model (of model) state vs = .ok state') :
    ∀ v ∈ vs, 2 ≤ model.occurrences v → Settled model seeded state' v := by
  induction vs generalizing state with
  | nil => simp
  | cons v vs ih =>
    rw [List.nodup_cons] at hvs
    obtain ⟨⟨state₁, monotonic⟩, hstep, hreports⟩ := bind_eq_ok.1 hreports
    obtain ⟨rest, hrest, hboth⟩ := bind_eq_ok.1 hreports
    obtain ⟨rfl, rfl⟩ : monotonic = true ∧ rest = true := by simpa using pure_eq_ok.1 hboth
    rw [Tightened.tighten_cons, hstep] at ht
    intro w hw hocc
    -- the step for a variable settles it, and the later steps leave it alone
    rcases List.mem_cons.1 hw with rfl | hw
    · have h₁ : Settled model seeded state₁ w :=
        settled_of_dualize hstep hocc (hkept w (by simp)) (hsteps.1 hocc)
      exact h₁.kept (kept_of_tighten ht (.inl hvs.1))
    · refine ih hvs.2 (fun u hu => ?_) (hsteps.2.of_ok hstep) hrest ht w hw hocc
      have hne : u ≠ v := fun h => hvs.1 (h ▸ hu)
      exact (hkept u (List.mem_cons_of_mem _ hu)).trans (kept_of_dualize hstep (.inl hne))

omit [RealFunctions ℚ] in
def repeatedOccurrences (model : Expr ℚ) : Set String :=
  {o | o ∈ (of model).tree.variableOccurrences ∧ 2 ≤ model.occurrences ((of model).owner o)}

/-- Every repeated variable is settled, with the directions `overall` of the model and `dir` of the
occurrence tree, and the occurrences of the other variables are as they were seeded. -/
structure AllSettled (model : Expr ℚ) (seeded state : WorkingRanges ℚ)
    (overall dir : String → Direction) : Prop where
  model_shows : ∀ v, 2 ≤ model.occurrences v → seeded.Shows model v (overall v)
  tree_shows : ∀ o ∈ repeatedOccurrences model, seeded.Shows (of model).tree o (dir o)
  exchanged : ∀ o ∈ repeatedOccurrences model, state.occurrences[o]? =
    if dir o = overall ((of model).owner o) then seeded.occurrences[o]?
    else (seeded.occurrences[o]?).map dual
  kept : ∀ o ∈ (of model).tree.variableOccurrences, o ∉ repeatedOccurrences model →
    state.occurrences[o]? = seeded.occurrences[o]?

theorem exists_allSettled {ranges : Ranges ℚ} (hs : Seeded model ranges seeded)
    (hmonotonic : reportedAllMonotonic model ranges = .ok true)
    (hgiven : DirectionsAsGiven model ranges)
    (ht : tighten .outer model (of model) seeded (of model).variableNames = .ok state) :
    ∃ overall dir, AllSettled model seeded state overall dir := by
  obtain ⟨seeded', hseed, hreports⟩ := bind_eq_ok.1 hmonotonic
  obtain rfl := Except.ok.inj (hseed.symm.trans hs.seed)
  have hsettled : ∀ v, 2 ≤ model.occurrences v → ∃ (overall : Direction) (dir : String → Direction),
      seeded'.Shows model v overall ∧ ∀ o ∈ (of model).occurrenceNames v,
      seeded'.Shows (of model).tree o (dir o) ∧
        state.occurrences[o]? =
          if dir o = overall then seeded'.occurrences[o]? else (seeded'.occurrences[o]?).map dual :=
    fun v hocc => settled_of_tighten (nodup_keys model) (fun _ _ _ _ => rfl)
      (hgiven.of_ok hseed) hreports ht v
      (mem_variableNames_of.2 (Expr.mem_of_two_le_occurrences hocc)) hocc
  -- each repeated variable has its own directions, which are gathered in one function
  have : Nonempty Direction := ⟨.up⟩
  choose! overall dir hoverall hall using hsettled
  refine ⟨overall, fun o => dir ((of model).owner o) o, hoverall, fun o ho => ?_, fun o ho => ?_,
    fun o ho hnot => ?_⟩
  · exact (hall _ ho.2 o (mem_occurrenceNames_owner ho.1)).1
  · exact (hall _ ho.2 o (mem_occurrenceNames_owner ho.1)).2
  · have hocc : model.occurrences ((of model).owner o) ≤ 1 := by
      by_contra hocc
      exact hnot ⟨ho, by omega⟩
    exact kept_of_tighten ht (.inr hocc) o (mem_occurrenceNames_owner ho)

/-! ### The bound is the set of values -/

section
variable {ranges : Ranges ℚ} {overall : String → Direction} (hs : Seeded model ranges seeded)

include hs

omit [RealFunctions ℚ]

/-- A point of the box of the occurrences that agrees on those of one owner is a point of the
owners. -/
theorem Seeded.exists_owner_point {ρ : String → ℝ} (hρ : ρ ∈ box (seeded.real model))
    (hsame : ∀ v, ∀ o ∈ (of model).occurrenceNames v,
      ∀ o' ∈ (of model).occurrenceNames v, ρ o = ρ o') :
    ∃ τ ∈ box (seeded.real model), model.value τ = (of model).tree.term.value ρ := by
  have hnames := (isPolynomial_tree hs.isPolynomial).names_term
  refine ⟨fun v => ρ (((of model).occurrenceNames v).headD v), mem_box.2 fun v => ?_, ?_⟩
  · cases hv : (of model).occurrenceNames v with
    | nil => exact mem_box.1 hρ v
    | cons o os =>
      obtain ⟨ho, howner⟩ :=
        (mem_occurrenceNames model).1 (hv ▸ List.mem_cons_self : o ∈ (of model).occurrenceNames v)
      rw [← howner, ← hs.real_occurrence ho]
      exact mem_box.1 hρ o
  · rw [← hs.value_term_tree]
    refine Term.value_congr _ fun o ho => ?_
    have hmem := mem_occurrenceNames_owner (hnames ▸ ho)
    refine hsame _ _ ?_ o hmem
    cases hv : (of model).occurrenceNames ((of model).owner o) with
    | nil => rw [hv] at hmem; cases hmem
    | cons o' os => exact List.mem_cons_self

theorem Seeded.exists_point_of_ends (e : Direction → ModalInterval ℝ → ℝ) {ρ : String → ℝ}
    (hρ : ρ ∈ box (seeded.real model))
    (hends : ∀ o ∈ repeatedOccurrences model,
      ρ o = e (overall ((of model).owner o)) (seeded.real model o)) :
    ∃ τ ∈ box (seeded.real model), model.value τ = (of model).tree.term.value ρ := by
  refine hs.exists_owner_point hρ fun v o ho o' ho' => ?_
  by_cases hocc : 2 ≤ model.occurrences v
  · have hend {o : String} (ho : o ∈ (of model).occurrenceNames v) :
        ρ o = e (overall v) (seeded.real model v) := by
      obtain ⟨hmem, rfl⟩ := (mem_occurrenceNames model).1 ho
      rw [hends o ⟨hmem, hocc⟩, hs.real_occurrence hmem]
    rw [hend ho, hend ho']
  · -- there is no other occurrence
    rw [← length_occurrenceNames_of] at hocc
    obtain ⟨i, hi, rfl⟩ := List.getElem_of_mem ho
    obtain ⟨j, hj, rfl⟩ := List.getElem_of_mem ho'
    congr 2
    omega

end

namespace AllSettled

variable {ranges : Ranges ℚ} {overall dir : String → Direction} (hs : Seeded model ranges seeded)
variable (h : AllSettled model seeded state overall dir)

include hs h

theorem along : ∀ o ∈ repeatedOccurrences model,
    (dir o).Along (of model).tree.term.value (seeded.real model) o := by
  intro o ho
  rw [funext (isPolynomial_tree hs.isPolynomial).value_term]
  exact hs.along_tree_of_shows (h.tree_shows o ho)

variable (htightened : Tightened seeded state)

include htightened

/-- A point range is its own dual, so there may be more occurrences that go against the model than
`exchanged`. -/
theorem range_eq_exchange :
    (of model).tree.term.range state.environment.real = (of model).tree.term.range
    (Term.exchange {o | o ∈ repeatedOccurrences model ∧ dir o ≠ overall ((of model).owner o)}
      (seeded.real model)) := by
  refine Term.range_congr _ fun o ho => ?_
  have ho : o ∈ (of model).tree.variableOccurrences :=
    (isPolynomial_tree hs.isPolynomial).names_term ▸ ho
  rw [Term.exchange]
  by_cases hrepeated : o ∈ repeatedOccurrences model
  · have hex := h.exchanged o hrepeated
    split_ifs at hex with hd
    · rw [if_neg fun h => h.2 hd, htightened.environment_real_of_eq ho hex]
    · rw [if_pos ⟨hrepeated, hd⟩, Tightened.environment_real_of_dual hs ho hex]
  · rw [if_neg fun h => hrepeated h.1, htightened.environment_real_of_eq ho (h.kept o ho hrepeated)]

theorem exists_values_within :
    (∃ τ ∈ box (seeded.real model),
      model.value τ ≤ ((of model).tree.term.range state.environment.real).lower) ∧
      ∃ τ ∈ box (seeded.real model),
        ((of model).tree.term.range state.environment.real).upper ≤ model.value τ := by
  have hnames := (isPolynomial_tree hs.isPolynomial).names_term
  have hnodup : (of model).tree.term.names.Nodup := hnames ▸ nodup_variableOccurrences model
  obtain ⟨⟨ρ, hρ, hends, hle⟩, σ, hσ, hends', hge⟩ := Term.exists_between_exchange_ends
    (d := fun o => overall ((of model).owner o)) hs.real_proper hnodup
      (fun o ho => hnames ▸ ho.1) (h.along hs)
  obtain ⟨τ, hτ, hvalue⟩ := hs.exists_point_of_ends Direction.bottom hρ hends
  obtain ⟨τ', hτ', hvalue'⟩ := hs.exists_point_of_ends Direction.top hσ hends'
  rw [h.range_eq_exchange hs htightened]
  exact ⟨⟨τ, hτ, hvalue.trans_le hle⟩, τ', hτ', hge.trans_eq hvalue'.symm⟩

theorem range_eq_image (hagainst : ∃ dir, GoAgainst model seeded state dir) :
    Icc ((of model).tree.term.range state.environment.real).lower
        ((of model).tree.term.range state.environment.real).upper =
      (fun τ => model.value τ) '' box (seeded.real model) := by
  obtain ⟨dir', hdir⟩ := hagainst
  obtain ⟨⟨τ, hτ, hle⟩, σ, hσ, hge⟩ := h.exists_values_within hs htightened
  refine Subset.antisymm ?_ ?_
  · have hvalues := model.term.Icc_subset_image (mem_image_of_mem _ hτ) (mem_image_of_mem _ hσ)
    rw [funext hs.isPolynomial.value_term] at hvalues
    exact (Icc_subset_Icc hle hge).trans hvalues
  · rintro _ ⟨τ, hτ, rfl⟩
    exact hdir.value_mem_range hs htightened hτ

end AllSettled

omit [RealFunctions ℚ] in
def points (model : Expr ℚ) (ranges : Ranges ℚ) : Set (String → ℝ) :=
  {τ | ∀ v ∈ model.variableOccurrences, ∀ x, ranges[v]? = some x → τ v ∈ Icc (x.lower : ℝ) x.upper}

omit [RealFunctions ℚ] in
theorem Seeded.image_box {ranges : Ranges ℚ} (hs : Seeded model ranges seeded) :
    (fun τ => model.value τ) '' box (seeded.real model) =
      (fun τ => model.value τ) '' points model ranges := by
  classical
  refine Subset.antisymm (image_mono fun τ hτ v hv x hx => ?_) ?_
  · have h := mem_box.1 hτ v
    rwa [hs.real_variable hv, hx] at h
  · rintro _ ⟨τ, hτ, rfl⟩
    let σ : String → ℝ := fun v => if v ∈ model.variableOccurrences then τ v
      else (seeded.real model v).lower
    refine ⟨σ, mem_box.2 fun v => ?_, Expr.value_congr fun v hv => if_pos hv⟩
    by_cases hv : v ∈ model.variableOccurrences
    · obtain ⟨x, hx, -⟩ := hs.proper v hv
      rw [hs.real_variable hv, hx]
      simpa only [σ, if_pos hv] using! hτ v hv x hx
    · simpa only [σ, if_neg hv] using left_mem_Icc.2 (hs.real_proper v)

/-- Over proper ranges the bound of a polynomial that is reported as monotonic in each variable is
the set of its values, where every step finds the directions that the given ranges show. -/
theorem outerApproximation_eq_image {V : Set String} {ranges : Ranges ℚ}
    (hmodel : model.IsPolynomial V)
    (hranges : ∀ v ∈ model.variableOccurrences, ∃ x, ranges[v]? = some x ∧ x.lower ≤ x.upper)
    (hmonotonic : reportedAllMonotonic model ranges = .ok true)
    (hgiven : DirectionsAsGiven model ranges) :
    ∃ bound, outerApproximation model ranges = .ok bound ∧ bound.lower ≤ bound.upper ∧
      Icc (bound.lower : ℝ) bound.upper = (fun τ => model.value τ) '' points model ranges := by
  obtain ⟨seeded, hs⟩ := exists_seeded hmodel hranges
  obtain ⟨state, ht⟩ := (Tightened.refl seeded).exists_tighten hs (of model).variableNames
  obtain ⟨overall, dir, hsettled⟩ := exists_allSettled hs hmonotonic hgiven ht
  have hagainst :=
    exchangesAgainst_of_directionsAsGiven hmodel hranges hgiven seeded state hs.seed ht
  have himage := hsettled.range_eq_image hs ((Tightened.refl seeded).tighten ht) hagainst
  obtain ⟨bound, hbound, hreal⟩ := Tightened.exists_outerApproximation hs ht
  rw [← hreal] at himage
  refine ⟨bound, hbound, ?_, himage.trans hs.image_box⟩
  have hpoint : (fun v => (seeded.real model v).lower) ∈ box (seeded.real model) :=
    mem_box.2 fun v => left_mem_Icc.2 (hs.real_proper v)
  have hvalue := himage.symm.subset (mem_image_of_mem _ hpoint)
  exact Rat.cast_le.1 (hvalue.1.trans hvalue.2)

end

end

section
attribute [local instance] RealFunctions.zero

/-- The step for `y` reads a slope over the exchanged range of `x`, and finds a direction that the
given ranges do not show. -/
example : ¬ DirectionsAsGiven coupledProduct
    ((((∅ : Ranges ℚ).insert "x" ⟨0, 1⟩).insert "y" ⟨0, 1⟩).insert "z" ⟨-1, 1⟩) := by
  decide +kernel

end

end ModalBounds
