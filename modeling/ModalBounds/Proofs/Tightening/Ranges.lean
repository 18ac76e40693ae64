import Mathlib
import ModalBounds.Proofs.Evaluation.Recorded
import ModalBounds.Proofs.Expr.Occurrence
import ModalBounds.Proofs.Tightening.Direction
import ModalBounds.Tightening.Estimator

/-!
# The ranges that tightening leaves

Seeding gives each occurrence the range of its owner. A tightening step exchanges the bounds of some
occurrences of one variable, if the model goes in one direction along it, and changes nothing else
(`Tightened`, kept by `dualize` and `tighten`). The bound is the range of the occurrence tree over
what is left (`exists_outerApproximation`).
-/

namespace ModalBounds

open Set ModalInterval OccurrenceTree

deriving instance DecidableEq for ModalInterval

/-! ### Seeding -/

namespace OccurrenceTree

variable {α : Type}

theorem getElem?_seedNames (range : ModalInterval α) (names : List String) (seeded : Ranges α)
    (o : String) :
    (seedNames range names seeded)[o]? = if o ∈ names then some range else seeded[o]? := by
  induction names generalizing seeded with
  | nil => rfl
  | cons name names ih =>
    rw [seedNames, List.foldl_cons, ← seedNames, ih, Std.ExtTreeMap.getElem?_insert]
    by_cases ho : o ∈ names
    · simp [ho]
    · by_cases hn : name = o
      · simp [hn]
      · simp [ho, hn, Ne.symm hn]

theorem seedAll_isOk {ranges : Ranges α} {l : List (String × List String)}
    (h : ∀ p ∈ l, (ranges[p.1]?).isSome) (seeded : Ranges α) :
    ∃ m, seedAll ranges seeded l = .ok m := by
  induction l generalizing seeded with
  | nil => exact ⟨seeded, rfl⟩
  | cons p l ih =>
    obtain ⟨x, hx⟩ := Option.isSome_iff_exists.1 (h p (by simp))
    rw [seedAll, hx]
    exact ih (fun q hq => h q (List.mem_cons_of_mem _ hq)) _

theorem getElem?_seedAll {ranges : Ranges α} {l : List (String × List String)} {seeded m : Ranges α}
    (h : seedAll ranges seeded l = .ok m) {o v : String} (ho : ∀ p ∈ l, o ∈ p.2 → p.1 = v) :
    m[o]? = if ∃ p ∈ l, o ∈ p.2 then ranges[v]? else seeded[o]? := by
  induction l generalizing seeded with
  | nil => cases h; simp
  | cons p l ih =>
    rw [seedAll] at h
    split at h
    · cases h
    · rename_i x hx
      rw [ih h fun q hq => ho q (List.mem_cons_of_mem _ hq), getElem?_seedNames]
      by_cases hl : ∃ q ∈ l, o ∈ q.2
      · rw [if_pos hl,
          if_pos (by obtain ⟨q, hq, hoq⟩ := hl; exact ⟨q, List.mem_cons_of_mem _ hq, hoq⟩)]
      · rw [if_neg hl]
        by_cases hp : o ∈ p.2
        · rw [if_pos hp, if_pos ⟨p, by simp, hp⟩, ← ho p (by simp) hp, hx]
        · rw [if_neg hp, if_neg]
          rintro ⟨q, hq, hoq⟩
          rcases List.mem_cons.1 hq with rfl | hq
          · exact hp hoq
          · exact hl ⟨q, hq, hoq⟩

theorem exists_mem_names_iff (e : Expr α) (o : String) :
    (∃ p ∈ (of e).names, o ∈ p.2) ↔ o ∈ (of e).tree.variableOccurrences := by
  refine ⟨fun ⟨p, hp, ho⟩ => (List.of_mem_zip (mem_zip_of_mem_names e hp ho)).2, fun h => ?_⟩
  exact Renaming.exists_mem_of_mem_namesOf (mem_occurrenceNames_owner h)

end OccurrenceTree

namespace WorkingRanges

variable {α : Type} {model : Expr α} {ranges : Ranges α} {seeded : WorkingRanges α}

theorem seed_isOk (h : ∀ v ∈ model.variableOccurrences, (ranges[v]?).isSome) :
    ∃ seeded, seed (of model) ranges = .ok seeded := by
  have hkeys : ∀ p ∈ (of model).names, (ranges[p.1]?).isSome := by
    intro p hp
    refine h p.1 (Expr.mem_variableNames.1 ?_)
    rw [← variableNames_of]
    exact List.mem_map_of_mem hp
  obtain ⟨m, hm⟩ := seedAll_isOk hkeys ∅
  exact ⟨⟨ranges, m⟩, bind_eq_ok.2 ⟨m, hm, rfl⟩⟩

theorem seed_ranges (h : seed (of model) ranges = .ok seeded) : seeded.ranges = ranges := by
  obtain ⟨m, -, h⟩ := bind_eq_ok.1 h
  rw [← pure_eq_ok.1 h]

/-- Seeding gives an occurrence the range of its owner, and nothing else a range. -/
theorem seed_occurrences (h : seed (of model) ranges = .ok seeded) (o : String) :
    seeded.occurrences[o]? =
      if o ∈ (of model).tree.variableOccurrences then ranges[(of model).owner o]? else none := by
  obtain ⟨m, hm, h⟩ := bind_eq_ok.1 h
  rw [← pure_eq_ok.1 h, getElem?_seedAll hm (v := (of model).owner o) fun p hp ho =>
    (owner_eq model (mem_zip_of_mem_names model hp ho)).symm]
  simp only [exists_mem_names_iff, Std.ExtTreeMap.getElem?_empty]

/-! ### Exchanging bounds -/

theorem dualizeName_occurrences (state : WorkingRanges α) (name o : String) :
    (state.dualizeName name).occurrences[o]? =
      if o = name then (state.occurrences[o]?).map dual else state.occurrences[o]? := by
  rw [dualizeName, Std.ExtTreeMap.getElem?_modify]
  by_cases h : o = name
  · simp [h]
  · simp [h, Ne.symm h]

theorem dualizeAgainst_ranges (overall : Direction) (l : List (String × Direction))
    (state : WorkingRanges α) :
    (dualizeAgainst overall state l).ranges = state.ranges := by
  induction l generalizing state with
  | nil => rfl
  | cons p l ih =>
    rw [dualizeAgainst, ih]
    split <;> rfl

theorem dualizeAgainst_of_not_mem {overall : Direction} {l : List (String × Direction)}
    (state : WorkingRanges α) {o : String} (h : o ∉ l.map (·.1)) :
    (dualizeAgainst overall state l).occurrences[o]? = state.occurrences[o]? := by
  induction l generalizing state with
  | nil => rfl
  | cons p l ih =>
    rw [List.map_cons, List.mem_cons, not_or] at h
    rw [dualizeAgainst, ih _ h.2]
    split
    · rfl
    · rw [dualizeName_occurrences, if_neg h.1]

theorem dualizeAgainst_of_mem {overall d : Direction} {l : List (String × Direction)}
    (hn : (l.map (·.1)).Nodup) (state : WorkingRanges α) {o : String} (h : (o, d) ∈ l) :
    (dualizeAgainst overall state l).occurrences[o]? =
      if d = overall then state.occurrences[o]? else (state.occurrences[o]?).map dual := by
  induction l generalizing state with
  | nil => cases h
  | cons p l ih =>
    rw [List.map_cons, List.nodup_cons] at hn
    rw [dualizeAgainst]
    rcases List.mem_cons.1 h with rfl | h
    · rw [dualizeAgainst_of_not_mem _ hn.1]
      split
      · rfl
      · rw [dualizeName_occurrences, if_pos rfl]
    · have hne : o ≠ p.1 := fun ho => hn.1 (ho ▸ List.mem_map_of_mem h)
      have hstep : (if p.2 = overall then state else state.dualizeName p.1).occurrences[o]? =
          state.occurrences[o]? := by
        split
        · rfl
        · rw [dualizeName_occurrences, if_neg hne]
      rw [ih hn.2 _ h, hstep]

variable [Elementary α]

/-- Over the current ranges the slope along a name has a direction. -/
def Shows (state : WorkingRanges α) (e : Expr α) (name : String) (d : Direction) : Prop :=
  ∃ y, state.slope e name = .ok y ∧ direction? y = some d

theorem shows_iff {state : WorkingRanges α} {e : Expr α} {name : String} {d : Direction} :
    state.Shows e name d ↔ (state.slope e name).toOption.bind direction? = some d := by
  simp only [Shows, Option.bind_eq_some_iff, toOption_eq_some]

instance (state : WorkingRanges α) (e : Expr α) (name : String) (d : Direction) :
    Decidable (state.Shows e name d) := decidable_of_iff _ shows_iff.symm

theorem Shows.unique {state : WorkingRanges α} {e : Expr α} {name : String} {d d' : Direction}
    (h : state.Shows e name d) (h' : state.Shows e name d') : d = d' :=
  Option.some.inj ((shows_iff.1 h).symm.trans (shows_iff.1 h'))

/-- The slope along a name shows one direction at most, which all occurrences of the name agree
on. -/
theorem exists_shows (state : WorkingRanges α) (e : Expr α) :
    ∃ dir : String → Direction, ∀ v d, state.Shows e v d → d = dir v := by
  have h (v : String) : ∃ d, ∀ d', state.Shows e v d' → d' = d := by
    by_cases hd : ∃ d, state.Shows e v d
    · exact hd.imp fun d hd d' hd' => hd'.unique hd
    · exact ⟨.up, fun d hd' => absurd ⟨d, hd'⟩ hd⟩
  choose dir hdir using h
  exact ⟨dir, hdir⟩

theorem directions?_eq_some {state : WorkingRanges α} {e : Expr α} {names : List String}
    {ds : List Direction}
    (h : state.directions? e names = .ok (some ds)) : List.Forall₂ (state.Shows e) names ds := by
  induction names generalizing ds with
  | nil => cases h; exact .nil
  | cons o names ih =>
    obtain ⟨y, hy, h⟩ := bind_eq_ok.1 h
    split at h
    · cases h
    · rename_i d hd
      obtain ⟨r, hr, h⟩ := bind_eq_ok.1 h
      cases r with
      | none => cases h
      | some ds' =>
        cases h
        exact .cons ⟨y, hy, hd⟩ (ih hr)

/-- What a tightening step can do: nothing, or exchange the bounds of those occurrences of the
variable that go against the model, where the model goes in one direction along the variable and
along each of its occurrences. -/
theorem dualize_eq_ok {state state' : WorkingRanges α} {model : Expr α}
    {k : OccurrenceTree α} {v : String}
    {monotonic : Bool} (h : state.dualize model k v = .ok (state', monotonic)) :
    (state' = state ∧ (monotonic = true → (k.occurrenceNames v).length ≤ 1)) ∨
      monotonic = true ∧ ∃ y overall ds, state.slope model v = .ok y ∧ direction? y = some overall ∧
        state.directions? k.tree (k.occurrenceNames v) = .ok (some ds) ∧
        state' = dualizeAgainst overall state ((k.occurrenceNames v).zip ds) := by
  rw [dualize_eq] at h
  split at h
  · rename_i hlen
    cases h
    exact .inl ⟨rfl, fun _ => hlen⟩
  · obtain ⟨y, hy, h⟩ := bind_eq_ok.1 h
    split at h
    · cases h
      exact .inl ⟨rfl, fun h => by cases h⟩
    · rename_i overall hd
      obtain ⟨r, hr, h⟩ := bind_eq_ok.1 h
      cases r with
      | none =>
        cases h
        exact .inl ⟨rfl, fun h => by cases h⟩
      | some ds =>
        cases h
        exact .inr ⟨rfl, y, overall, ds, hy, hd, hr, rfl⟩

section
variable {state state' : WorkingRanges α} {model : Expr α} {v : String}

/-- The same for the occurrences of the model itself, one by one. -/
theorem dualize_cases {monotonic : Bool}
    (h : state.dualize model (of model) v = .ok (state', monotonic)) :
    (state' = state ∧ (monotonic = true → model.occurrences v ≤ 1)) ∨
      ∃ (overall : Direction) (dir : String → Direction), state.Shows model v overall ∧
        (∀ o ∈ (of model).occurrenceNames v, state.Shows (of model).tree o (dir o)) ∧
        (∀ o ∈ (of model).occurrenceNames v, state'.occurrences[o]? =
          if dir o = overall then state.occurrences[o]? else (state.occurrences[o]?).map dual) ∧
        ∀ o ∉ (of model).occurrenceNames v, state'.occurrences[o]? = state.occurrences[o]? := by
  rcases dualize_eq_ok h with ⟨rfl, hlen⟩ | ⟨-, y, overall, ds, hy, hd, hds, rfl⟩
  · exact .inl ⟨rfl, fun h => length_occurrenceNames_of model v ▸ hlen h⟩
  · have hall := directions?_eq_some hds
    have hzip : (((of model).occurrenceNames v).zip ds).map (·.1) = (of model).occurrenceNames v :=
      List.map_fst_zip hall.length_eq.le
    have hdir : ∀ o, ∃ d, o ∈ (of model).occurrenceNames v →
        (o, d) ∈ ((of model).occurrenceNames v).zip ds := by
      intro o
      by_cases ho : o ∈ (of model).occurrenceNames v
      · rw [← hzip, List.mem_map] at ho
        obtain ⟨⟨_, d⟩, hmem, rfl⟩ := ho
        exact ⟨d, fun _ => hmem⟩
      · exact ⟨overall, fun h => absurd h ho⟩
    choose dir hdir using hdir
    refine .inr ⟨overall, dir, ⟨y, hy, hd⟩, fun o ho => ?_, fun o ho => ?_, fun o ho => ?_⟩
    · exact List.forall₂_zip hall (hdir o ho)
    · exact dualizeAgainst_of_mem (hzip.symm ▸ nodup_occurrenceNames model v) state (hdir o ho)
    · exact dualizeAgainst_of_not_mem state (hzip.symm ▸ ho)

theorem dualize_ranges {k : OccurrenceTree α} {monotonic : Bool}
    (h : state.dualize model k v = .ok (state', monotonic)) : state'.ranges = state.ranges := by
  rcases dualize_eq_ok h with ⟨rfl, -⟩ | ⟨-, y, overall, ds, -, -, -, rfl⟩
  · rfl
  · exact dualizeAgainst_ranges overall _ state

theorem eq_of_dualize_eq_false {k : OccurrenceTree α}
    (h : state.dualize model k v = .ok (state', false)) : state' = state := by
  rcases dualize_eq_ok h with ⟨rfl, -⟩ | ⟨h, -⟩
  · rfl
  · cases h

theorem dualize_occurrences {monotonic : Bool}
    (h : state.dualize model (of model) v = .ok (state', monotonic))
    (o : String) : state'.occurrences[o]? = state.occurrences[o]? ∨
      state'.occurrences[o]? = (state.occurrences[o]?).map dual := by
  rcases dualize_cases h with ⟨rfl, -⟩ | ⟨overall, dir, -, -, hexchange, hkeep⟩
  · exact .inl rfl
  · by_cases ho : o ∈ (of model).occurrenceNames v
    · rw [hexchange o ho]
      split
      · exact .inl rfl
      · exact .inr rfl
    · exact .inl (hkeep o ho)

theorem exists_directions?_of_shows {e : Expr α} {names : List String}
    (h : ∀ o ∈ names, ∃ d, state.Shows e o d) :
    ∃ ds, state.directions? e names = .ok (some ds) := by
  induction names with
  | nil => exact ⟨[], rfl⟩
  | cons o names ih =>
    rw [List.forall_mem_cons] at h
    obtain ⟨d, y, hy, hd⟩ := h.1
    obtain ⟨ds, hds⟩ := ih h.2
    exact ⟨d :: ds, bind_eq_ok.2 ⟨y, hy, by rw [hd]; exact bind_eq_ok.2 ⟨some ds, hds, rfl⟩⟩⟩

theorem exists_dualize_of_shows {k : OccurrenceTree α} (hmodel : ∃ d, state.Shows model v d)
    (htree : ∀ o ∈ k.occurrenceNames v, ∃ d, state.Shows k.tree o d) :
    ∃ state', state.dualize model k v = .ok (state', true) := by
  obtain ⟨d, y, hy, hd⟩ := hmodel
  obtain ⟨ds, hds⟩ := exists_directions?_of_shows htree
  rw [dualize_eq]
  split
  · exact ⟨state, rfl⟩
  · exact ⟨_, bind_eq_ok.2 ⟨y, hy, by rw [hd]; exact bind_eq_ok.2 ⟨some ds, hds, rfl⟩⟩⟩

end

end WorkingRanges

section
variable {α : Type} [Elementary α] {model : Expr α} {v : String} {state : WorkingRanges α}

theorem dualize_of_occurrences_le_one (state : WorkingRanges α) (hv : model.occurrences v ≤ 1) :
    state.dualize model (of model) v = .ok (state, true) := by
  rw [WorkingRanges.dualize_eq, if_pos (by rwa [length_occurrenceNames_of])]

theorem tighten_of_occurrences_le_one {approximation : Approximation} {vs : List String}
    (hvs : ∀ v ∈ vs, model.occurrences v ≤ 1) :
    tighten approximation model (of model) state vs = .ok state := by
  induction vs with
  | nil => rfl
  | cons v vs ih =>
    rw [tighten_cons, dualize_of_occurrences_le_one state (hvs v (by simp))]
    exact ih fun w hw => hvs w (List.mem_cons_of_mem _ hw)

end

/-! ### Tightened ranges -/

theorem OccurrenceTree.isPolynomial_tree {model : Expr ℚ} {V : Set String}
    (h : model.IsPolynomial V) :
    (of model).tree.IsPolynomial {o | o ∈ (of model).tree.variableOccurrences} :=
  (Expr.isPolynomial_rename h _).of_forall_mem fun _ ho => ho

/-- The ranges of the variables of a model and of their occurrences; other names do not count. -/
noncomputable def WorkingRanges.real (state : WorkingRanges ℚ) (model : Expr ℚ) (v : String) :
    ModalInterval ℝ :=
  if v ∈ model.variableOccurrences ∨ v ∈ (of model).tree.variableOccurrences then
    state.environment.real v
  else ⟨0, 0⟩

/-- Every variable of a polynomial model has a proper range, and each occurrence is seeded with the
range of its owner. -/
structure Seeded (model : Expr ℚ) (ranges : Ranges ℚ) (seeded : WorkingRanges ℚ) : Prop where
  isPolynomial : model.IsPolynomial {v | v ∈ model.variableOccurrences}
  proper : ∀ v ∈ model.variableOccurrences, ∃ x, ranges[v]? = some x ∧ x.lower ≤ x.upper
  seed : WorkingRanges.seed (of model) ranges = .ok seeded

/-- What tightening leaves of the ranges that were seeded: the bounds of some occurrences are
exchanged. -/
structure Tightened (seeded state : WorkingRanges ℚ) : Prop where
  ranges : state.ranges = seeded.ranges
  occurrences : ∀ o : String, state.occurrences[o]? = seeded.occurrences[o]? ∨
    state.occurrences[o]? = (seeded.occurrences[o]?).map dual

/-- The occurrences whose bounds are exchanged. -/
def exchanged (model : Expr ℚ) (seeded state : WorkingRanges ℚ) : Set String :=
  {o | o ∈ (of model).tree.variableOccurrences ∧ state.occurrences[o]? ≠ seeded.occurrences[o]?}

section
variable {model : Expr ℚ} {ranges : Ranges ℚ} {seeded state state' : WorkingRanges ℚ}

theorem exists_seeded {V : Set String} (hmodel : model.IsPolynomial V)
    (hranges : ∀ v ∈ model.variableOccurrences, ∃ x, ranges[v]? = some x ∧ x.lower ≤ x.upper) :
    ∃ seeded, Seeded model ranges seeded := by
  obtain ⟨seeded, hseed⟩ := WorkingRanges.seed_isOk fun v hv => by
    obtain ⟨x, hx, -⟩ := hranges v hv
    rw [hx, Option.isSome_some]
  exact ⟨seeded, hmodel.of_forall_mem fun _ hv => hv, hranges, hseed⟩

namespace Seeded

variable (h : Seeded model ranges seeded)

include h

theorem environment_variable {v : String} (hv : v ∈ model.variableOccurrences) :
    seeded.environment v = ranges[v]? := by
  have hnone : seeded.occurrences[v]? = none := by
    rw [WorkingRanges.seed_occurrences h.seed, if_neg fun ho => not_mem_of_mem model ho hv]
  show (seeded.occurrences[v]?).or (seeded.ranges[v]?) = _
  rw [hnone, WorkingRanges.seed_ranges h.seed, Option.none_or]

theorem environment_occurrence {o : String} (ho : o ∈ (of model).tree.variableOccurrences) :
    seeded.environment o = ranges[(of model).owner o]? := by
  obtain ⟨x, hx, -⟩ := h.proper _ (owner_mem model ho)
  show (seeded.occurrences[o]?).or (seeded.ranges[o]?) = _
  rw [WorkingRanges.seed_occurrences h.seed, if_pos ho, hx, Option.some_or]

theorem real_variable {v : String} (hv : v ∈ model.variableOccurrences) :
    seeded.real model v = ((ranges[v]?).getD ⟨0, 0⟩).toReal := by
  rw [WorkingRanges.real, if_pos (.inl hv), Environment.real, h.environment_variable hv]

theorem real_occurrence {o : String} (ho : o ∈ (of model).tree.variableOccurrences) :
    seeded.real model o = seeded.real model ((of model).owner o) := by
  rw [h.real_variable (owner_mem model ho), WorkingRanges.real, if_pos (.inr ho), Environment.real,
    h.environment_occurrence ho]

theorem real_owner (o : String) : seeded.real model ((of model).owner o) = seeded.real model o := by
  by_cases ho : o ∈ (of model).tree.variableOccurrences
  · exact (h.real_occurrence ho).symm
  · rw [owner_of_not_mem model ho]

theorem real_proper (v : String) : (seeded.real model v).lower ≤ (seeded.real model v).upper := by
  have hvar {v : String} (hv : v ∈ model.variableOccurrences) :
      (seeded.real model v).lower ≤ (seeded.real model v).upper := by
    obtain ⟨x, hx, hle⟩ := h.proper v hv
    rw [h.real_variable hv, hx]
    exact Rat.cast_le.2 hle
  by_cases hv : v ∈ model.variableOccurrences
  · exact hvar hv
  · by_cases ho : v ∈ (of model).tree.variableOccurrences
    · rw [h.real_occurrence ho]
      exact hvar (owner_mem model ho)
    · rw [WorkingRanges.real, if_neg (not_or.2 ⟨hv, ho⟩)]

end Seeded

namespace Tightened

theorem refl (seeded : WorkingRanges ℚ) : Tightened seeded seeded := ⟨rfl, fun _ => .inl rfl⟩

variable (hs : Seeded model ranges seeded) (h : Tightened seeded state)

include h

omit h in
theorem map_dual_map_dual {α : Type} (x : Option (ModalInterval α)) :
    (x.map dual).map dual = x := by
  cases x <;> rfl

theorem isSome_occurrences (o : String) :
    (state.occurrences[o]?).isSome = (seeded.occurrences[o]?).isSome := by
  rcases h.occurrences o with ho | ho
  · rw [ho]
  · rw [ho, Option.isSome_map]

theorem environment_variable (hs : Seeded model ranges seeded) {v : String}
    (hv : v ∈ model.variableOccurrences) : state.environment v = seeded.environment v := by
  have hnone : seeded.occurrences[v]? = none := by
    rw [WorkingRanges.seed_occurrences hs.seed, if_neg fun ho => not_mem_of_mem model ho hv]
  have hnone' : state.occurrences[v]? = none :=
    Option.not_isSome_iff_eq_none.1 (by rw [h.isSome_occurrences, hnone]; decide)
  show (state.occurrences[v]?).or (state.ranges[v]?) =
      (seeded.occurrences[v]?).or (seeded.ranges[v]?)
  rw [hnone, hnone', h.ranges]

theorem environment_real_of_eq {o : String} (ho : o ∈ (of model).tree.variableOccurrences)
    (heq : state.occurrences[o]? = seeded.occurrences[o]?) :
    state.environment.real o = seeded.real model o := by
  have henv (s : WorkingRanges ℚ) : s.environment o = (s.occurrences[o]?).or (s.ranges[o]?) := rfl
  rw [WorkingRanges.real, if_pos (.inr ho), Environment.real, Environment.real, henv, henv,
    heq, h.ranges]

omit h in
theorem environment_real_of_dual (hs : Seeded model ranges seeded) {o : String}
    (ho : o ∈ (of model).tree.variableOccurrences)
    (heq : state.occurrences[o]? = (seeded.occurrences[o]?).map dual) :
    state.environment.real o = (seeded.real model o).dual := by
  have henv (s : WorkingRanges ℚ) : s.environment o = (s.occurrences[o]?).or (s.ranges[o]?) := rfl
  obtain ⟨x, hx, -⟩ := hs.proper _ (owner_mem model ho)
  have hsome : seeded.occurrences[o]? = some x := by
    rw [WorkingRanges.seed_occurrences hs.seed, if_pos ho, hx]
  rw [WorkingRanges.real, if_pos (.inr ho), Environment.real, Environment.real, henv,
    henv, heq, hsome]
  rfl

/-- The occurrences have the ranges that were seeded, with some bounds exchanged. -/
theorem environment_real (hs : Seeded model ranges seeded) {o : String}
    (ho : o ∈ (of model).tree.variableOccurrences) : state.environment.real o =
      Term.exchange (exchanged model seeded state) (seeded.real model) o := by
  rw [Term.exchange]
  split_ifs with hne
  · exact environment_real_of_dual hs ho ((h.occurrences o).resolve_left hne.2)
  · exact h.environment_real_of_eq ho (not_not.1 fun hne' => hne ⟨ho, hne'⟩)

theorem isSome_environment (hs : Seeded model ranges seeded) {v : String}
    (hv : v ∈ model.variableOccurrences ∨ v ∈ (of model).tree.variableOccurrences) :
    (state.environment v).isSome := by
  rcases hv with hv | hv
  · obtain ⟨x, hx, -⟩ := hs.proper v hv
    rw [h.environment_variable hs hv, hs.environment_variable hv, hx, Option.isSome_some]
  · obtain ⟨x, hx, -⟩ := hs.proper _ (owner_mem model hv)
    have hsome : (state.occurrences[v]?).isSome := by
      rw [h.isSome_occurrences, WorkingRanges.seed_occurrences hs.seed, if_pos hv, hx,
        Option.isSome_some]
    show ((state.occurrences[v]?).or (state.ranges[v]?)).isSome
    rw [Option.isSome_or, hsome, Bool.true_or]

theorem environment_real_variable (hs : Seeded model ranges seeded) :
    ∀ v ∈ {v | v ∈ model.variableOccurrences}, state.environment.real v = seeded.real model v :=
  fun v hv => by
    rw [WorkingRanges.real, if_pos (.inl hv), Environment.real, Environment.real,
      h.environment_variable hs hv]

variable [RealFunctions ℚ]

/-- A tightening step does nothing but exchange bounds. -/
theorem dualize {v : String} {monotonic : Bool}
    (hstep : state.dualize model (of model) v = .ok (state', monotonic)) :
    Tightened seeded state' := by
  refine ⟨(WorkingRanges.dualize_ranges hstep).trans h.ranges, fun o => ?_⟩
  rcases WorkingRanges.dualize_occurrences hstep o with heq | heq
  · rw [heq]
    exact h.occurrences o
  · rw [heq]
    rcases h.occurrences o with hkept | hdual
    · exact .inr (by rw [hkept])
    · exact .inl (by rw [hdual, map_dual_map_dual])

theorem exists_directions? (hs : Seeded model ranges seeded) (names : List String) :
    ∃ r, state.directions? (of model).tree names = .ok r := by
  induction names with
  | nil => exact ⟨_, rfl⟩
  | cons o names ih =>
    obtain ⟨d, y, -, -, hy, -⟩ := WorkingRanges.exists_slope (isPolynomial_tree hs.isPolynomial)
      (fun w hw => h.isSome_environment hs (.inr hw)) o
    obtain ⟨r, hr⟩ := ih
    rw [WorkingRanges.directions?_cons, hy]
    rcases hd : direction? y with _ | dir
    · exact ⟨none, bind_eq_ok.2 ⟨y, rfl, by rw [hd]; rfl⟩⟩
    · exact ⟨r.map (dir :: ·), bind_eq_ok.2 ⟨y, rfl, by rw [hd]; exact bind_eq_ok.2 ⟨r, hr, rfl⟩⟩⟩

theorem exists_dualize (hs : Seeded model ranges seeded) (v : String) :
    ∃ r, state.dualize model (of model) v = .ok r := by
  obtain ⟨d, y, -, -, hy, -⟩ := WorkingRanges.exists_slope hs.isPolynomial
    (fun w hw => h.isSome_environment hs (.inl hw)) v
  obtain ⟨r, hr⟩ := h.exists_directions? hs ((of model).occurrenceNames v)
  rw [WorkingRanges.dualize_eq]
  split
  · exact ⟨_, rfl⟩
  · rcases hd : direction? y with _ | dir
    · exact ⟨_, bind_eq_ok.2 ⟨y, hy, by rw [hd]; rfl⟩⟩
    · cases r with
      | none => exact ⟨_, bind_eq_ok.2 ⟨y, hy, by rw [hd]; exact bind_eq_ok.2 ⟨none, hr, rfl⟩⟩⟩
      | some ds =>
        exact ⟨_, bind_eq_ok.2 ⟨y, hy, by rw [hd]; exact bind_eq_ok.2 ⟨some ds, hr, rfl⟩⟩⟩

omit h in
theorem tighten_cons (v : String) (vs : List String) :
    ModalBounds.tighten .outer model (of model) state (v :: vs) =
      state.dualize model (of model) v >>= fun r =>
        ModalBounds.tighten .outer model (of model) r.1 vs := by
  rw [ModalBounds.tighten_cons]
  refine bind_congr fun r => ?_
  have hne : (Approximation.outer == Approximation.inner) = false := rfl
  simp only [hne, Bool.and_false, Bool.false_eq_true, if_false]

theorem tighten {vs : List String}
    (ht : ModalBounds.tighten .outer model (of model) state vs = .ok state') :
    Tightened seeded state' := by
  induction vs generalizing state with
  | nil => cases ht; exact h
  | cons v vs ih =>
    rw [tighten_cons] at ht
    obtain ⟨⟨state₁, monotonic⟩, hstep, ht⟩ := bind_eq_ok.1 ht
    exact ih (h.dualize hstep) ht

theorem exists_tighten (hs : Seeded model ranges seeded) (vs : List String) :
    ∃ state', ModalBounds.tighten .outer model (of model) state vs = .ok state' := by
  induction vs generalizing state with
  | nil => exact ⟨state, rfl⟩
  | cons v vs ih =>
    obtain ⟨⟨state₁, monotonic⟩, hstep⟩ := h.exists_dualize hs v
    obtain ⟨state', ht⟩ := ih (h.dualize hstep)
    exact ⟨state', by rw [tighten_cons]; exact bind_eq_ok.2 ⟨_, hstep, ht⟩⟩

omit h in
/-- The bound is the range of the occurrence tree over the ranges that are left, and each node of
the tree is recorded with its interval. -/
theorem exists_approximateNodes (hs : Seeded model ranges seeded)
    (ht : ModalBounds.tighten .outer model (of model) seeded (of model).variableNames = .ok state) :
    ∃ bound nodes, approximateNodes .outer model ranges = .ok (bound, nodes) ∧
      bound.toReal = (of model).tree.term.range state.environment.real ∧
      ∀ n : ℕ, nodes[n]? =
        ((of model).tree.preorder[n]?).bind fun a => (a.interval state.environment).toOption := by
  have h : Tightened seeded state := (refl seeded).tighten ht
  have htree := isPolynomial_tree hs.isPolynomial
  have henv : ∀ o ∈ {o | o ∈ (of model).tree.variableOccurrences}, (state.environment o).isSome :=
    fun o ho => h.isSome_environment hs (.inr ho)
  obtain ⟨p, hp⟩ := htree.exists_compile
  obtain ⟨bound, hbound, hreal⟩ := htree.interval_eq henv
  have hrun : (p.run state.environment ∅).1 = .ok bound := by
    rw [← hbound, ← Program.evaluate_eq hp henv]
    rfl
  refine ⟨bound, (p.run state.environment ∅).2.recorded, ?_, hreal,
    Program.getElem?_recorded hp (Prod.ext hrun rfl)⟩
  rw [approximateNodes_eq]
  refine bind_eq_ok.2 ⟨seeded, hs.seed, bind_eq_ok.2 ⟨state, ht, bind_eq_ok.2 ⟨p, hp, ?_⟩⟩⟩
  exact bind_eq_ok.2 ⟨bound, hrun, rfl⟩

omit h in
theorem exists_outerApproximation (hs : Seeded model ranges seeded)
    (ht : ModalBounds.tighten .outer model (of model) seeded (of model).variableNames = .ok state) :
    ∃ bound, outerApproximation model ranges = .ok bound ∧
      bound.toReal = (of model).tree.term.range state.environment.real := by
  obtain ⟨bound, nodes, hrun, hreal, -⟩ := exists_approximateNodes hs ht
  exact ⟨bound, by rw [outerApproximation, approximate_eq_map, hrun]; rfl, hreal⟩

end Tightened

section
variable [RealFunctions ℚ] (hs : Seeded model ranges seeded) {v : String} {d : Direction}

include hs

/-- Over the ranges that were seeded, which are proper, the slope of a part of the model shows its
direction. -/
theorem Seeded.along_of_shows_of_mem {part : Expr ℚ} (hpart : part ∈ model.preorder)
    (h : seeded.Shows part v d) : d.Along (fun ρ => part.value ρ) (seeded.real model) v := by
  obtain ⟨y, hy, hd⟩ := h
  exact WorkingRanges.along_of_slope (hs.isPolynomial.of_mem_preorder part hpart)
    (fun _ hw => (Tightened.refl seeded).isSome_environment hs (.inl hw)) hs.real_proper
    ((Tightened.refl seeded).environment_real_variable hs) hy hd

theorem Seeded.along_of_shows (h : seeded.Shows model v d) :
    d.Along (fun ρ => model.value ρ) (seeded.real model) v :=
  hs.along_of_shows_of_mem model.mem_preorder_self h

theorem Seeded.along_tree_of_shows_of_mem {part : Expr ℚ} (hpart : part ∈ (of model).tree.preorder)
    (h : seeded.Shows part v d) : d.Along (fun ρ => part.value ρ) (seeded.real model) v := by
  obtain ⟨y, hy, hd⟩ := h
  exact WorkingRanges.along_of_slope
    ((isPolynomial_tree hs.isPolynomial).of_mem_preorder part hpart)
    (fun _ hw => (Tightened.refl seeded).isSome_environment hs (.inr hw)) hs.real_proper
    (fun _ hw => (if_pos (Or.inr hw)).symm) hy hd

theorem Seeded.along_tree_of_shows (h : seeded.Shows (of model).tree v d) :
    d.Along (fun ρ => (of model).tree.value ρ) (seeded.real model) v :=
  hs.along_tree_of_shows_of_mem (of model).tree.mem_preorder_self h

end

end

end ModalBounds
