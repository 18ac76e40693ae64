import Mathlib
import ModalBounds.Proofs.Evaluation.Completion
import ModalBounds.Proofs.Interval.Built
import ModalBounds.Proofs.Tightening.Ranges

/-!
# Bounds are built

A node of a model combines the intervals of its operands by operations, and a leaf makes a point or
a product. So the interval of a model is built over any ranges (`Expr.built_of_interval`), and a run
records built intervals next to those that were recorded before (`Program.built_of_outcome`).
Tightening keeps a range, exchanges its bounds or makes it a point, so the ranges of a state stay
built (`WorkingRanges.AllBuilt`), and a bound is built whatever the ranges of the variables are
(`built_of_approximateNodes`).
-/

namespace ModalBounds

open ModalInterval

section
variable {α : Type} [Elementary α] {env : Environment α}

/-! ### One node -/

theorem built_foldl {op : ModalInterval α → ModalInterval α → ModalInterval α}
    (hop : ∀ x y, (op x y).Built)
    {x : ModalInterval α} (hx : x.Built) (xs : List (ModalInterval α)) : (xs.foldl op x).Built := by
  induction xs generalizing x with
  | nil => exact hx
  | cons y xs ih => exact ih (hop x y)

theorem built_of_powerOf {x y z : ModalInterval α} (h : Machine.powerOf x y = .ok z) : z.Built := by
  rw [Machine.powerOf] at h
  split at h
  · split at h
    · rename_i hpow
      cases h
      exact built_of_pow? hpow
    · cases h
  · cases h

/-- Only a node that hands its operand on depends on how the operand was made. -/
theorem Symbol.built_of_interval {s : Symbol α} {xs : List (ModalInterval α)} {y : ModalInterval α}
    (hxs : ∀ x ∈ xs, x.Built) (h : s.interval env xs = .ok y) : y.Built := by
  cases s with
  | var name weight =>
    simp only [Symbol.interval] at h
    split at h <;> cases h
    exact built_mul ..
  | const => cases h; exact .of ..
  | add =>
    rcases xs with _ | ⟨x, xs⟩ <;> cases h
    exact built_foldl (fun _ _ => .of ..) (hxs x (by simp)) xs
  | mul =>
    rcases xs with _ | ⟨x, xs⟩ <;> cases h
    exact built_foldl built_mul (hxs x (by simp)) xs
  | sub =>
    rcases xs with _ | ⟨x, _ | ⟨y, xs⟩⟩ <;> cases h
    · exact .of ..
    · exact built_foldl (fun _ _ => .of ..) (hxs x (by simp)) (y :: xs)
  | div =>
    rcases xs with _ | ⟨x, _ | ⟨y, xs⟩⟩ <;> cases h
    · exact built_recip x
    · exact built_foldl (fun x y => built_mul x y.recip) (hxs x (by simp)) (y :: xs)
  | power =>
    rcases xs with _ | ⟨x, _ | ⟨n, _ | _⟩⟩
    · cases h
    · cases h
    · exact built_of_powerOf h
    · cases h
  | analyticQuotient =>
    rcases xs with _ | ⟨x, _ | ⟨y, _ | _⟩⟩ <;> cases h
    exact built_mul ..
  | sin | cos | tan | abs =>
    rcases xs with _ | ⟨x, _ | _⟩ <;> cases h
    exact built_onProper ..
  | tanh | exp | sqrt =>
    rcases xs with _ | ⟨x, _ | _⟩ <;> cases h
    exact .of ..
  | log =>
    rcases xs with _ | ⟨x, _ | _⟩ <;> cases h
    exact built_log x
  | square =>
    rcases xs with _ | ⟨x, _ | _⟩ <;> cases h
    exact built_zpow x 2
  | subFunction =>
    rcases xs with _ | ⟨x, _ | _⟩ <;> cases h
    exact hxs y (by simp)
  | cube | cbrt | root | logistic | erf | min | max => cases h

/-! ### Whole models -/

namespace Expr

theorem built_of_interval (e : Expr α) : ∀ {x}, e.interval env = .ok x → x.Built := by
  induction e with
  | node s args ih =>
    intro x h
    obtain ⟨xs, hxs, hs⟩ := bind_eq_ok.1 h
    refine Symbol.built_of_interval (fun y hy => ?_) hs
    obtain ⟨a, ha, hay⟩ := exists_of_forall₂ (intervals_eq_ok.1 hxs).flip y hy
    exact ih a ha hay

theorem built_of_evaluate {e : Expr α} {x : ModalInterval α} (h : e.evaluate env = .ok x) :
    x.Built := by
  obtain ⟨p, hp, hx⟩ := bind_eq_ok.1 h
  rw [Program.evaluate_eq hp (Program.isSome_of_run_eq_ok hp hx)] at hx
  exact e.built_of_interval hx

end Expr

omit [Elementary α] in
theorem Gained.recorded_or_value {value : Expr α → Except (ModelError α) (ModalInterval α)}
    {nodes : List (ℕ × Expr α)}
    {before after : NodeIntervals α} (h : Gained value nodes before after) {n : ℕ}
    {x : ModalInterval α}
    (hx : after[n]? = some x) : before[n]? = some x ∨ ∃ a, value a = .ok x := by
  by_cases hn : n ∈ before
  · exact .inl ((h.kept n hn).symm.trans hx)
  · have hmem : n ∈ after := Std.ExtTreeMap.mem_iff_isSome_getElem?.2 (by rw [hx]; rfl)
    obtain ⟨a, ha⟩ := (h.mem_of_mem n hmem).resolve_left hn
    obtain ⟨y, hy, hafter⟩ := h.gained n a ha
    cases hx.symm.trans (hafter hn)
    exact .inr ⟨a, hy⟩

def NodeIntervals.AllBuilt (recorded : NodeIntervals α) : Prop :=
  ∀ (n : ℕ) (x : ModalInterval α), recorded[n]? = some x → x.Built

/-- What a run comes to is built, also if it fails. -/
theorem Program.built_of_outcome {e : Expr α} {p : Program α} (hp : compile e = .ok p)
    (env : Environment α)
    {before : NodeIntervals α} (hbefore : before.AllBuilt) :
    (∀ x, (p.outcome env before).1 = .ok x → x.Built) ∧
    NodeIntervals.AllBuilt (p.outcome env before).2 := by
  have hgained {nodes : List (ℕ × Expr α)} {after : NodeIntervals α}
      (h : Gained (Expr.evaluate env) nodes before after) : after.AllBuilt := by
    intro n x hx
    rcases h.recorded_or_value hx with hx | ⟨a, ha⟩
    · exact hbefore n x hx
    · exact Expr.built_of_evaluate ha
  by_cases henv : ∀ v ∈ e.variableOccurrences, (env v).isSome
  · -- a run that fails at a power has recorded the nodes before it
    rcases outcome_gained hp henv before
      with ⟨y, after, hrun, hy, h⟩ | ⟨_, _, _, _, _, _, after, _, _, _, _, hrun, h⟩
    · rw [hrun]
      refine ⟨fun x hx => ?_, hgained h⟩
      cases hx
      exact Expr.built_of_evaluate hy
    · rw [hrun]
      exact ⟨nofun, hgained h⟩
  · simp only [not_forall, Option.not_isSome_iff_eq_none, exists_prop] at henv
    obtain ⟨_, _, _, _, _, _, _, _, hrun⟩ := outcome_missingRange hp env before henv
    rw [hrun]
    exact ⟨nofun, hbefore⟩

/-! ### Tightening -/

namespace OccurrenceTree

omit [Elementary α] in
theorem exists_of_getElem?_seedAll {ranges seeded m : Ranges α} {l : List (String × List String)}
    (h : seedAll ranges seeded l = .ok m) {o : String} {x : ModalInterval α} (hx : m[o]? = some x) :
    (∃ v : String, ranges[v]? = some x) ∨ seeded[o]? = some x := by
  induction l generalizing seeded with
  | nil =>
    cases h
    exact .inr hx
  | cons p l ih =>
    rw [seedAll] at h
    split at h
    · cases h
    · rename_i y hy
      rcases ih h with hx | hx
      · exact .inl hx
      · rw [getElem?_seedNames] at hx
        split at hx
        · cases hx
          exact .inl ⟨p.1, hy⟩
        · exact .inr hx

end OccurrenceTree

namespace WorkingRanges

variable {state state' : WorkingRanges α} {x : ModalInterval α}

omit [Elementary α] in
/-- A variable or an occurrence has the range. -/
def Holds (state : WorkingRanges α) (x : ModalInterval α) : Prop :=
  ∃ v : String, state.ranges[v]? = some x ∨ state.occurrences[v]? = some x

omit [Elementary α] in
theorem Holds.of_seed {k : OccurrenceTree α} {ranges : Ranges α} (h : seed k ranges = .ok state)
    (hx : state.Holds x) : ∃ v : String, ranges[v]? = some x := by
  obtain ⟨m, hm, h⟩ := bind_eq_ok.1 h
  obtain rfl := pure_eq_ok.1 h
  obtain ⟨v, hx | hx⟩ := hx
  · exact ⟨v, hx⟩
  · exact (OccurrenceTree.exists_of_getElem?_seedAll hm hx).resolve_right (by simp)

omit [Elementary α] in
theorem Holds.of_dualizeName {name : String} (hx : (state.dualizeName name).Holds x) :
    state.Holds x ∨ ∃ y, state.Holds y ∧ x = y.dual := by
  obtain ⟨v, hx | hx⟩ := hx
  · exact .inl ⟨v, .inl hx⟩
  · rw [dualizeName_occurrences] at hx
    split at hx
    · obtain ⟨y, hy, rfl⟩ := Option.map_eq_some_iff.1 hx
      exact .inr ⟨y, ⟨v, .inr hy⟩, rfl⟩
    · exact .inl ⟨v, .inr hx⟩

def AllBuilt (state : WorkingRanges α) : Prop := ∀ x, state.Holds x → x.Built

theorem AllBuilt.seed {k : OccurrenceTree α} {ranges : Ranges α}
    (hranges : ∀ (v : String) y, ranges[v]? = some y → y.Built)
    (h : WorkingRanges.seed k ranges = .ok state) : state.AllBuilt := by
  intro x hx
  obtain ⟨v, hv⟩ := hx.of_seed h
  exact hranges v x hv

theorem AllBuilt.dualizeAgainst (h : state.AllBuilt) (overall : Direction)
    (l : List (String × Direction)) : (state.dualizeAgainst overall l).AllBuilt := by
  induction l generalizing state with
  | nil => exact h
  | cons p l ih =>
    rw [WorkingRanges.dualizeAgainst]
    refine ih fun x hx => ?_
    split at hx
    · exact h x hx
    · rcases hx.of_dualizeName with hx | ⟨y, hy, rfl⟩
      · exact h x hx
      · exact (h y hy).dual

theorem AllBuilt.dualize (h : state.AllBuilt) {model : Expr α} {k : OccurrenceTree α} {v : String}
    {monotonic : Bool}
    (hstep : state.dualize model k v = .ok (state', monotonic)) : state'.AllBuilt := by
  rcases dualize_eq_ok hstep with ⟨rfl, -⟩ | ⟨-, _, overall, _, -, -, -, rfl⟩
  · exact h
  · exact h.dualizeAgainst overall _

theorem AllBuilt.collapseToMid (h : state.AllBuilt) (k : OccurrenceTree α) (v : String) :
    (state.collapseToMid k v).AllBuilt := by
  rw [WorkingRanges.collapseToMid]
  split
  · exact h
  · rintro x ⟨w, hx | hx⟩
    · rw [Std.ExtTreeMap.getElem?_insert] at hx
      split at hx
      · cases hx
        exact .of ..
      · exact h x ⟨w, .inl hx⟩
    · rw [OccurrenceTree.getElem?_seedNames] at hx
      split at hx
      · cases hx
        exact .of ..
      · exact h x ⟨w, .inr hx⟩

end WorkingRanges

/-- A bound is built, and so are the intervals of the nodes. -/
theorem built_of_approximateNodes {approximation : Approximation} {model : Expr α}
    {ranges : Ranges α} {x : ModalInterval α} {nodes : NodeIntervals α}
    (h : approximateNodes approximation model ranges = .ok (x, nodes)) :
    x.Built ∧ nodes.AllBuilt := by
  rw [approximateNodes_eq] at h
  obtain ⟨seeded, -, h⟩ := bind_eq_ok.1 h
  obtain ⟨state, -, h⟩ := bind_eq_ok.1 h
  obtain ⟨p, hp, h⟩ := bind_eq_ok.1 h
  obtain ⟨bound, hbound, h⟩ := bind_eq_ok.1 h
  cases h
  have hempty : NodeIntervals.AllBuilt (∅ : NodeIntervals α) := fun n x hx => by simp at hx
  have hbuilt := Program.built_of_outcome hp state.environment hempty
  exact ⟨hbuilt.1 x hbound, hbuilt.2⟩

end

end ModalBounds
