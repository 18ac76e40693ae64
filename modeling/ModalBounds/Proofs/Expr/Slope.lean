import Mathlib
import ModalBounds.Proofs.Expr.ChainRule
import ModalBounds.Proofs.Expr.Evaluable

/-!
# The derivative of a model is the sum of those of its occurrences

The slope along a variable is the sum of the slopes along names that stand for it (`slope_relabel`),
and a derivative has the slope as its meaning. Whether a derivative is found depends on the
exponents of the powers with the variable alone (`exists_derivative_iff`), which a renaming leaves
alone.
-/

namespace ModalBounds

namespace Expr

/-! ### Names that stand for a variable -/

section
variable {K F : Type} [Field K] [Field F] [Algebra K F] (I : Interpretation F) (ρ : String → F)

/-- The slope along a variable is the sum of the slopes along the names that stand for it. -/
theorem slope_relabel {f : String → String} {v : String} {os : List String}
    (hos : os.Nodup) (e : Expr K)
    (h : ∀ o ∈ e.variableOccurrences, f o = v ↔ o ∈ os) :
    (e.relabel f).slope I ρ v = (os.map fun o => e.slope I (ρ ∘ f) o).sum := by
  induction e with
  | node s args ih =>
    rcases hname : (node s []).variableName? with _ | name
    · have hmeanings : (args.map (relabel f)).map (meaning I ρ) = args.map (meaning I (ρ ∘ f)) := by
        rw [List.map_map]
        exact List.map_congr_left fun a _ => meaning_relabel I ρ f a
      have hslopes : (args.map (relabel f)).map (slope I ρ v) =
          args.map fun a => (os.map fun o => a.slope I (ρ ∘ f) o).sum := by
        rw [List.map_map]
        exact List.map_congr_left fun a ha => ih a ha fun o ho =>
          h o (mem_variableOccurrences_of_mem ha ho)
      rw [relabel_node, symbol_relabel_eq_self f hname, slope_node I ρ v hname, hmeanings, hslopes,
        combine_map_sum]
      simp only [slope_node I _ _ hname]
    · cases s with
      | var name' weight =>
        have hv := h name' (by simp [variableOccurrences_node, variableName?])
        simp only [relabel_node, Symbol.relabel, slope_var]
        -- of the names that stand for `v`, at most this one is the variable
        by_cases hmem : name' ∈ os
        · rw [if_pos (hv.2 hmem), ← List.sum_toFinset _ hos, Finset.sum_ite_eq,
            if_pos (by simpa using hmem)]
        · rw [if_neg (mt hv.1 hmem), List.sum_eq_zero]
          intro z hz
          obtain ⟨o, ho, rfl⟩ := List.mem_map.1 hz
          rw [if_neg]
          rintro rfl
          exact hmem ho
      | _ => cases hname

end

/-! ### Derivatives that are found -/

section
variable {α : Type} [Scalar α]

/-- Whether the exponents of the powers with `x` are integer constants. -/
def IntegerExponents (x : String) (e : Expr α) : Prop :=
  ∀ f n, node .power [f, n] ∈ e.preorder → (node .power [f, n]).mentions x →
    (n.constantValue?.bind Scalar.integer?).isSome

/-- Of an expression that can be evaluated there is a derivative exactly if the exponents allow
it. -/
theorem exists_derivative_iff {V : Set String} {e : Expr α} (he : e.Evaluable V Set.univ)
    (x : String) : (∃ d, e.derivative x = .ok d) ↔ e.IntegerExponents x := by
  constructor
  · rintro ⟨d, hd⟩ f n hmem hm
    exact isSome_integer?_of_derivativeAt he hd hmem hm
  · intro h
    have hpow : e.PowersDerivable (fun _ => False) Set.univ x := by
      intro f n hmem hm
      obtain ⟨i, hi⟩ := Option.isSome_iff_exists.1 (h f n hmem hm)
      obtain ⟨c, hc, hint⟩ := Option.bind_eq_some_iff.1 hi
      exact .inl ⟨c, hc, by rw [hint]; rfl, trivial⟩
    obtain ⟨d, hd, -⟩ := (he.derivativeAt hpow 0).exists_ok
    exact ⟨d, hd⟩

omit [Scalar α] in
theorem mentions_relabel (f : String → String) (v : String) (e : Expr α) :
    (e.relabel f).mentions v ↔ ∃ o ∈ e.variableOccurrences, f o = v := by
  rw [mentions_iff, variableOccurrences_relabel, List.mem_map]

omit [Scalar α] in
theorem eq_power_of_relabel {f : String → String} {b g n : Expr α}
    (h : b.relabel f = node .power [g, n]) :
    ∃ g' n', b = node .power [g', n'] ∧ g'.relabel f = g ∧ n'.relabel f = n := by
  obtain ⟨s, args⟩ := b
  rw [relabel_node] at h
  injection h with hs hargs
  obtain rfl : s = .power := by cases s <;> cases hs; rfl
  rcases args with _ | ⟨g', _ | ⟨n', _ | ⟨_, args⟩⟩⟩
  · cases hargs
  · cases hargs
  · cases hargs
    exact ⟨g', n', rfl, rfl, rfl⟩
  · cases hargs

theorem integerExponents_relabel (f : String → String) (v : String) (e : Expr α) :
    (e.relabel f).IntegerExponents v ↔ ∀ o ∈ e.variableOccurrences,
    f o = v → e.IntegerExponents o := by
  have hpower (g n : Expr α) : (node .power [g, n]).relabel f =
      node .power [g.relabel f, n.relabel f] :=
    relabel_node f _ _
  constructor
  · intro h o _ hv g n hmem hm
    have hmem' : (node .power [g, n]).relabel f ∈ (e.relabel f).preorder := by
      rw [preorder_relabel]
      exact List.mem_map_of_mem hmem
    have hm' : ((node .power [g, n]).relabel f).mentions v :=
      (mentions_relabel f v _).2 ⟨o, (mentions_iff _ _).1 hm, hv⟩
    rw [hpower] at hmem' hm'
    rw [← constantValue?_relabel f n]
    exact h _ _ hmem' hm'
  · intro h g n hmem hm
    rw [preorder_relabel, List.mem_map] at hmem
    obtain ⟨b, hb, heq⟩ := hmem
    rw [← heq, mentions_relabel] at hm
    obtain ⟨o, ho, hv⟩ := hm
    obtain ⟨g', n', rfl, rfl, rfl⟩ := eq_power_of_relabel heq
    rw [constantValue?_relabel]
    exact h o ((sublist_variableOccurrences hb).subset ho) hv g' n' hb ((mentions_iff _ _).2 ho)

end

end Expr

/-! ### The occurrences of a variable -/

section
open OccurrenceTree

theorem integerExponents_iff_occurrences {α : Type} [Scalar α] (e : Expr α) (v : String) :
    e.IntegerExponents v ↔ ∀ o ∈ (of e).occurrenceNames v, (of e).tree.IntegerExponents o := by
  have h := Expr.integerExponents_relabel (of e).owner v (of e).tree
  rw [relabel_owner] at h
  simp only [h, mem_occurrenceNames, and_imp]

theorem slope_eq_sum_occurrences {K F : Type} [Field K] [Field F] [Algebra K F]
    (I : Interpretation F)
    (ρ : String → F) (e : Expr K) (v : String) :
    e.slope I ρ v = (((of e).occurrenceNames v).map fun o =>
      (of e).tree.slope I (ρ ∘ (of e).owner) o).sum := by
  have h : ∀ o ∈ (of e).tree.variableOccurrences,
      (of e).owner o = v ↔ o ∈ (of e).occurrenceNames v := by
    intro o ho
    simp [mem_occurrenceNames, ho]
  have hslope := Expr.slope_relabel I ρ (nodup_occurrenceNames e v) (of e).tree h
  rwa [relabel_owner] at hslope

/-- A model that compiles has a derivative exactly if it has one along every occurrence of the
variable, and the derivative is then the sum of these, over any field and for any functions that the
symbols are read as. Division by zero is zero there, so no divisor has to differ from zero. -/
theorem derivative_eq_sum_derivatives :
    (∀ {α : Type} [Scalar α] {e : Expr α} {p : Program α}, Program.compile e = .ok p → ∀ v : String,
      ((∃ d, e.derivative v = .ok d) ↔
        ∀ o ∈ (of e).occurrenceNames v, ∃ d, (of e).tree.derivative o = .ok d)) ∧
    ∀ {K F : Type} [Field K] [LinearOrder K] [FloorRing K] [Field F] [Algebra K F] {e d : Expr K}
      {ds : List (Expr K)} {v : String}, e.derivative v = .ok d →
      List.Forall₂ (fun o d' => (of e).tree.derivative o = .ok d') ((of e).occurrenceNames v) ds →
      ∀ (I : Interpretation F) (ρ : String → F),
        d.meaning I ρ = (ds.map fun d' => d'.meaning I fun o => ρ ((of e).owner o)).sum := by
  constructor
  · intro α _ e p hp v
    have he := Expr.exists_compile_iff.1 ⟨p, hp⟩
    have htree := evaluable_tree_of_compile hp
    rw [Expr.exists_derivative_iff he, integerExponents_iff_occurrences]
    exact forall₂_congr fun o _ => (Expr.exists_derivative_iff htree o).symm
  · intro K F _ _ _ _ _ e d ds v hd hds I ρ
    have hmeanings {os : List String} {ds : List (Expr K)}
        (h : List.Forall₂ (fun o d' => (of e).tree.derivative o = .ok d') os ds) :
        ds.map (fun d' => d'.meaning I fun o => ρ ((of e).owner o)) =
          os.map fun o => (of e).tree.slope I (ρ ∘ (of e).owner) o := by
      induction h with
      | nil => rfl
      | cons h _ ih =>
        rw [List.map_cons, List.map_cons, ih, ← Expr.meaning_of_derivativeAt h]
        rfl
    -- both sides are slopes, and those add up over the occurrences
    rw [hmeanings hds, ← slope_eq_sum_occurrences]
    exact Expr.meaning_of_derivativeAt hd

/-- The model `3 * x * y / (x - y)`, where `y` need not differ from `x`. -/
def weightedOverDifference : Expr ℚ :=
  .binary .div (.binary .mul (.weighted "x" 3) (.ofVariable "y"))
    (.binary .sub (.ofVariable "x") (.ofVariable "y"))

theorem derivative_weightedOverDifference :
    ∃ d d₁ d₂, weightedOverDifference.derivative "x" = .ok d ∧
      (of weightedOverDifference).occurrenceNames "x" = ["x_1", "x_2"] ∧
      (of weightedOverDifference).tree.derivative "x_1" = .ok d₁ ∧
      (of weightedOverDifference).tree.derivative "x_2" = .ok d₂ ∧
      ∀ (I : Interpretation ℝ) (ρ : String → ℝ), d.meaning I ρ =
        d₁.meaning I (fun o => ρ ((of weightedOverDifference).owner o)) +
          d₂.meaning I (fun o => ρ ((of weightedOverDifference).owner o)) := by
  obtain ⟨p, hp⟩ : ∃ p, Program.compile weightedOverDifference = .ok p := ⟨_, rfl⟩
  have hnames : (of weightedOverDifference).occurrenceNames "x" = ["x_1", "x_2"] := by
    decide +kernel
  obtain ⟨d₁, h₁⟩ : ∃ d, (of weightedOverDifference).tree.derivative "x_1" = .ok d := ⟨_, rfl⟩
  obtain ⟨d₂, h₂⟩ : ∃ d, (of weightedOverDifference).tree.derivative "x_2" = .ok d := ⟨_, rfl⟩
  obtain ⟨d, hd⟩ := (derivative_eq_sum_derivatives.1 hp "x").2 (by simp [hnames, h₁, h₂])
  refine ⟨d, d₁, d₂, hd, hnames, h₁, h₂, fun I ρ => ?_⟩
  have hds : List.Forall₂ (fun o d' => (of weightedOverDifference).tree.derivative o = .ok d')
      ((of weightedOverDifference).occurrenceNames "x") [d₁, d₂] := by
    simp [hnames, h₁, h₂]
  simpa using derivative_eq_sum_derivatives.2 hd hds I ρ

end

end ModalBounds
