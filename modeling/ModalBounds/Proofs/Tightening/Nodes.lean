import Mathlib
import ModalBounds.Proofs.Tightening.Enclosure

/-!
# Bounds of all nodes

The intervals of the nodes are recorded over the ranges that tightening leaves for the whole model,
and a part of the model may go another way than the whole. A node's bounds enclose the values of its
expression where the exchanged occurrences below it go against that expression, or where the others
do: then the interval is improper, and has its bounds put in order (`nodeBounds_encloses`). This is
so at the root wherever tightening exchanges only what goes against the model, at every node whose
own slopes show that the exchanged occurrences go against it (`NodeShowsAgainst`, which can be
decided), and at every node below which no variable occurs that the model repeats.
-/

namespace ModalBounds

open Set ModalInterval OccurrenceTree

theorem mem_toInterval {x : ModalInterval ℚ} {t : ℝ}
    (h : t ∈ Icc (x.lower : ℝ) x.upper ∨ t ∈ Icc (x.upper : ℝ) x.lower) :
    t ∈ Icc (x.toInterval.lower : ℝ) x.toInterval.upper := by
  rcases le_or_gt x.lower x.upper with hle | hlt
  · have hle' : (x.lower : ℝ) ≤ x.upper := Rat.cast_le.2 hle
    rw [toInterval, proper_of_le hle]
    rcases h with h | h
    · exact h
    · exact ⟨hle'.trans h.1, h.2.trans hle'⟩
  · rw [toInterval, proper_of_lt hlt]
    exact h.resolve_left fun h => (Rat.cast_lt.2 hlt).not_ge (h.1.trans h.2)

theorem mem_map_toInterval {nodes : NodeIntervals ℚ} {n : ℕ} {y : ModalInterval ℚ}
    (h : nodes[n]? = some y)
    {z : Interval ℚ} :
    (n, z) ∈ (nodes.toList.map fun p => (p.1, p.2.toInterval)) ↔ z = y.toInterval := by
  constructor
  · intro hz
    obtain ⟨⟨m, y'⟩, hy', heq⟩ := List.mem_map.1 hz
    obtain ⟨rfl, rfl⟩ := Prod.mk.inj heq
    rw [Std.ExtTreeMap.mem_toList_iff_getElem?_eq_some, h] at hy'
    rw [Option.some.inj hy']
  · rintro rfl
    exact List.mem_map.2 ⟨(n, y), Std.ExtTreeMap.mem_toList_iff_getElem?_eq_some.2 h, rfl⟩

/-! ### Plain ranges -/

namespace Collection

variable {given : Collection ℚ}

theorem getElem?_toRanges (given : Collection ℚ) (v : String) :
    given.toRanges[v]? = (given[v]?).map fun x => ⟨x.lower, x.upper⟩ := by
  rw [toRanges, Std.ExtTreeMap.getElem?_map]
  simp only [Interval.toModal, ModalInterval.of_eq]

theorem exists_toRanges {v : String} (h : ∃ x, given[v]? = some x ∧ x.lower ≤ x.upper) :
    ∃ x, given.toRanges[v]? = some x ∧ x.lower ≤ x.upper := by
  obtain ⟨x, hx, hle⟩ := h
  exact ⟨⟨x.lower, x.upper⟩, by rw [getElem?_toRanges, hx]; rfl, hle⟩

end Collection

section
variable {model : Expr ℚ} {ranges : Ranges ℚ} {seeded state state' : WorkingRanges ℚ}

/-! ### Parts of the occurrence tree -/

/-- A part of the occurrence tree goes against some direction along each of its occurrences in `S`,
and the expression that it stands for goes in that direction along the owner of the occurrence. -/
def PartAgainst (model : Expr ℚ) (seeded : WorkingRanges ℚ) (part : Expr ℚ)
    (S : Set String) : Prop :=
  ∃ dir : String → Direction, ∀ o ∈ part.variableOccurrences, o ∈ S →
    (dir ((of model).owner o)).Along (fun ρ => (part.relabel (of model).owner).value ρ)
      (seeded.real model)
        ((of model).owner o) ∧
      (dir ((of model).owner o)).opposite.Along (fun ρ => part.value ρ) (seeded.real model) o

theorem PartAgainst.of_disjoint {part : Expr ℚ} {S : Set String}
    (h : ∀ o ∈ part.variableOccurrences, o ∉ S) : PartAgainst model seeded part S :=
  ⟨fun _ => .up, fun o ho hS => absurd hS (h o ho)⟩

/-- A node of the model is the part of the occurrence tree with the same number, with the owners for
its occurrences. -/
theorem getElem?_preorder (model : Expr ℚ) (n : ℕ) :
    model.preorder[n]? = ((of model).tree.preorder[n]?).map (Expr.relabel (of model).owner) := by
  conv_lhs => rw [← relabel_owner model, Expr.preorder_relabel]
  exact List.getElem?_map

theorem value_term_relabel {V : Set String} {part : Expr ℚ} (hpart : part.IsPolynomial V)
    (owner : String → String)
    (τ : String → ℝ) : part.term.value (fun o => τ (owner o)) = (part.relabel owner).value τ := by
  rw [hpart.value_term, Expr.value_relabel]
  rfl

theorem PartAgainst.againstOwners {V : Set String} {part : Expr ℚ} {S : Set String}
    (hpart : part.IsPolynomial V)
    (h : PartAgainst model seeded part S) :
    ∃ dir, part.term.AgainstOwners (of model).owner (seeded.real model) S dir := by
  obtain ⟨dir, hdir⟩ := h
  refine ⟨dir, fun o ho hS => ?_⟩
  rw [funext (value_term_relabel hpart _), funext hpart.value_term]
  exact hdir o (hpart.names_term ▸ ho) hS

namespace Seeded

variable (hs : Seeded model ranges seeded)

include hs

theorem exists_mem_box {τ : String → ℝ}
    (hτ : ∀ v ∈ model.variableOccurrences, ∀ x, ranges[v]? = some x →
    τ v ∈ Icc (x.lower : ℝ) x.upper) :
    ∃ σ ∈ box (seeded.real model), ∀ v ∈ model.variableOccurrences, σ v = τ v := by
  classical
  -- names that are no variables of the model do not count
  refine ⟨fun v => if v ∈ model.variableOccurrences then τ v else (seeded.real model v).lower,
    mem_box.2 fun v => ?_, fun v hv => if_pos hv⟩
  by_cases hv : v ∈ model.variableOccurrences
  · obtain ⟨x, hx, -⟩ := hs.proper v hv
    rw [if_pos hv, hs.real_variable hv, hx]
    exact hτ v hv x hx
  · rw [if_neg hv]
    exact left_mem_Icc.2 (hs.real_proper v)

variable [RealFunctions ℚ]

/-- The interval of a part of the occurrence tree, its bounds put in order, encloses what the part
stands for. -/
theorem value_mem_toInterval (h : Tightened seeded state) {part : Expr ℚ}
    (hpart : part ∈ (of model).tree.preorder)
    (hagainst : PartAgainst model seeded part (exchanged model seeded state) ∨
      PartAgainst model seeded part (exchanged model seeded state)ᶜ)
    {x : ModalInterval ℚ} (hx : part.interval state.environment = .ok x) {σ : String → ℝ}
    (hσ : σ ∈ box (seeded.real model)) :
    (part.relabel (of model).owner).value σ ∈ Icc (x.toInterval.lower : ℝ) x.toInterval.upper := by
  have htree := isPolynomial_tree hs.isPolynomial
  have hpoly := htree.of_mem_preorder part hpart
  have hsub := Expr.sublist_variableOccurrences hpart
  have hnodup : part.term.names.Nodup :=
    hpoly.names_term ▸ (nodup_variableOccurrences model).sublist hsub
  obtain ⟨y, hy, hreal⟩ := hpoly.interval_eq fun o ho => h.isSome_environment hs (.inr ho)
  obtain rfl : y = x := Except.ok.inj (hy.symm.trans hx)
  -- the part is evaluated over the ranges of the tree, and its occurrences are some of the tree's
  have hrange : y.toReal =
      part.term.range (Term.exchange (exchanged model seeded state) (seeded.real model)) := by
    rw [hreal]
    exact part.term.range_congr fun o ho =>
      h.environment_real hs (hsub.subset (hpoly.names_term ▸ ho))
  rw [← value_term_relabel hpoly]
  refine mem_toInterval ?_
  rcases hagainst with h | h
  · obtain ⟨dir, hdir⟩ := h.againstOwners hpoly
    have hmem := Term.value_owner_mem_range_exchange hs.real_proper hnodup hs.real_owner hσ hdir
    rw [← hrange] at hmem
    exact .inl hmem
  · obtain ⟨dir, hdir⟩ := h.againstOwners hpoly
    have hmem :=
      Term.value_owner_mem_range_exchange_compl hs.real_proper hnodup hs.real_owner hσ hdir
    rw [← hrange] at hmem
    exact .inr hmem

theorem partAgainst_of_shows {n : ℕ} {part : Expr ℚ}
    (hpart : (of model).tree.preorder[n]? = some part)
    {S : Set String} (hshows : ∀ o ∈ part.variableOccurrences, o ∈ S → ∃ d,
      seeded.Shows (part.relabel (of model).owner) ((of model).owner o) d ∧
      seeded.Shows part o d.opposite) :
    PartAgainst model seeded part S := by
  have hnode : part.relabel (of model).owner ∈ model.preorder := by
    refine List.mem_of_getElem? (i := n) ?_
    rw [getElem?_preorder, hpart, Option.map_some]
  obtain ⟨dir, hdir⟩ := WorkingRanges.exists_shows seeded (part.relabel (of model).owner)
  refine ⟨dir, fun o ho hS => ?_⟩
  obtain ⟨d, hmodel, htree⟩ := hshows o ho hS
  obtain rfl := hdir _ d hmodel
  exact ⟨hs.along_of_shows_of_mem hnode hmodel,
    hs.along_tree_of_shows_of_mem (List.mem_of_getElem? hpart) htree⟩

end Seeded

variable [RealFunctions ℚ]

/-- Below a node the exchanged occurrences go against what the node stands for, or the others do. -/
def NodeAgainst (model : Expr ℚ) (ranges : Ranges ℚ) (n : ℕ) : Prop :=
  ∀ seeded state part, WorkingRanges.seed (of model) ranges = .ok seeded →
    tighten .outer model (of model) seeded (of model).variableNames = .ok state →
    (of model).tree.preorder[n]? = some part →
    PartAgainst model seeded part (exchanged model seeded state) ∨
      PartAgainst model seeded part (exchanged model seeded state)ᶜ

/-- The bounds of the nodes of a polynomial model over plain ranges: there is one for each node, and
it encloses the values of the node's expression, where what is exchanged below the node goes against
that. -/
theorem nodeBounds_encloses {V : Set String} (hmodel : model.IsPolynomial V) {estimator : Estimator}
    (houter : estimator.approximation = .outer)
    (hlimits : estimator.limits.checkTree (α := ℚ) model = .ok ()) {given : Collection ℚ}
    (hgiven : ∀ v ∈ model.variableOccurrences, ∃ x, given[v]? = some x ∧ x.lower ≤ x.upper)
    (count : ℕ) :
    ∃ bounds, (estimator.nodeBounds model given).run.run count = (.ok bounds, count + 1) ∧
      ∀ (n : ℕ) (a : Expr ℚ), model.preorder[n]? = some a →
        ∃ y, (∀ z, (n, z) ∈ bounds ↔ z = y) ∧
          (NodeAgainst model given.toRanges n → ∀ τ : String → ℝ,
            (∀ v ∈ model.variableOccurrences, ∀ x,
              given[v]? = some x → τ v ∈ Icc (x.lower : ℝ) x.upper) →
            a.value τ ∈ Icc (y.lower : ℝ) y.upper) := by
  have hproper : ∀ v ∈ model.variableOccurrences, ∃ x,
      given.toRanges[v]? = some x ∧ x.lower ≤ x.upper :=
    fun v hv => Collection.exists_toRanges (hgiven v hv)
  obtain ⟨seeded, hseed⟩ := WorkingRanges.seed_isOk fun v hv => by
    obtain ⟨x, hx, -⟩ := hproper v hv
    rw [hx, Option.isSome_some]
  have hs : Seeded model given.toRanges seeded :=
    ⟨hmodel.of_forall_mem fun _ hv => hv, hproper, hseed⟩
  obtain ⟨state, ht⟩ := (Tightened.refl seeded).exists_tighten hs (of model).variableNames
  have h : Tightened seeded state := (Tightened.refl seeded).tighten ht
  obtain ⟨bound, nodes, hrun, -, hnodes⟩ := Tightened.exists_approximateNodes hs ht
  refine ⟨nodes.toList.map fun p => (p.1, p.2.toInterval), ?_, fun n a ha => ?_⟩
  · rw [Estimator.run_nodeBounds, hlimits, houter, hrun]
    rfl
  · rw [getElem?_preorder, Option.map_eq_some_iff] at ha
    -- what a node stands for is a part of the tree, with the owners for the occurrences
    obtain ⟨part, hpart, rfl⟩ := ha
    have hmem := List.mem_of_getElem? hpart
    obtain ⟨y, hy, -⟩ := ((isPolynomial_tree hs.isPolynomial).of_mem_preorder part hmem).interval_eq
      fun o ho => h.isSome_environment hs (.inr ho)
    have hnode : nodes[n]? = some y := by rw [hnodes, hpart, Option.bind_some, hy]; rfl
    refine ⟨y.toInterval, fun z => mem_map_toInterval hnode, fun hagainst τ hτ => ?_⟩
    obtain ⟨σ, hσ, hστ⟩ := hs.exists_mem_box (τ := τ) fun v hv x hx => by
      obtain ⟨x', hx', rfl⟩ := Option.map_eq_some_iff.1 (Collection.getElem?_toRanges given v ▸ hx)
      exact hτ v hv x' hx'
    have hvalue : (part.relabel (of model).owner).value σ =
        (part.relabel (of model).owner).value τ :=
      Expr.value_congr fun v hv => by
        rw [Expr.variableOccurrences_relabel, List.mem_map] at hv
        obtain ⟨o, ho, rfl⟩ := hv
        exact hστ _ (owner_mem model ((Expr.sublist_variableOccurrences hmem).subset ho))
    rw [← hvalue]
    exact hs.value_mem_toInterval h hmem (hagainst seeded state part hseed ht hpart) hy hσ

/-! ### Where the condition holds -/

/-- At the root it is the condition for the bound of the model. -/
theorem nodeAgainst_zero (h : ExchangesAgainst model ranges) : NodeAgainst model ranges 0 := by
  intro seeded state part hseed ht hpart
  obtain ⟨dir, hdir⟩ := h seeded state hseed ht
  have hroot : (of model).tree.preorder[0]? = some (of model).tree := by
    rcases (of model).tree with ⟨s, args⟩
    rw [Expr.preorder_node]
    rfl
  obtain rfl : (of model).tree = part := Option.some.inj (hroot.symm.trans hpart)
  refine .inl ⟨dir, fun o _ ho => ?_⟩
  rw [relabel_owner]
  exact hdir o ho

/-- The slopes over the given ranges show that what is exchanged below a node goes against it. -/
def NodeShowsAgainst (model : Expr ℚ) (ranges : Ranges ℚ) (n : ℕ) : Prop :=
  Ends (fun _ => True) (fun seeded =>
    Ends (fun _ => True) (fun state =>
      ∀ part ∈ (of model).tree.preorder[n]?, ∀ o ∈ part.variableOccurrences,
        state.occurrences[o]? ≠ seeded.occurrences[o]? → ∃ d ∈ [Direction.up, .down],
          seeded.Shows (part.relabel (of model).owner) ((of model).owner o) d ∧
          seeded.Shows part o d.opposite)
      (tighten .outer model (of model) seeded (of model).variableNames))
    (WorkingRanges.seed (of model) ranges)

instance (ranges : Ranges ℚ) (n : ℕ) : Decidable (NodeShowsAgainst model ranges n) := by
  unfold NodeShowsAgainst
  infer_instance

/-- It is enough that the slopes of the node have their directions over the given ranges. -/
theorem nodeAgainst_of_nodeShowsAgainst {V : Set String} (hmodel : model.IsPolynomial V)
    (hranges : ∀ v ∈ model.variableOccurrences, ∃ x, ranges[v]? = some x ∧ x.lower ≤ x.upper)
    {n : ℕ} (hshows : NodeShowsAgainst model ranges n) : NodeAgainst model ranges n := by
  intro seeded state part hseed ht hpart
  have hs : Seeded model ranges seeded := ⟨hmodel.of_forall_mem fun _ hv => hv, hranges, hseed⟩
  refine .inl (hs.partAgainst_of_shows hpart fun o ho hex => ?_)
  obtain ⟨d, -, hd⟩ := (hshows.of_ok hseed).of_ok ht part hpart o ho hex.2
  exact ⟨d, hd⟩

/-- A variable that occurs once below a node is exchanged or not, but goes one way. -/
theorem nodeAgainst_of_length_le_one {n : ℕ} {a : Expr ℚ} (ha : model.preorder[n]? = some a)
    (hone : a.variableOccurrences.length ≤ 1) : NodeAgainst model ranges n := by
  intro seeded state part hseed ht hpart
  rw [getElem?_preorder, hpart, Option.map_some, Option.some.injEq] at ha
  rw [← ha, Expr.variableOccurrences_relabel, List.length_map] at hone
  rcases hnames : part.variableOccurrences with _ | ⟨o, rest⟩
  · exact .inl (.of_disjoint (by simp [hnames]))
  · obtain rfl : rest = [] := by simpa [hnames] using hone
    by_cases ho : o ∈ exchanged model seeded state
    · exact .inr (.of_disjoint (by simpa [hnames] using ho))
    · exact .inl (.of_disjoint (by simpa [hnames] using ho))

theorem dualize_occurrences {v o : String} {monotonic : Bool}
    (hstep : state.dualize model (of model) v = .ok (state', monotonic))
    (ho : model.occurrences ((of model).owner o) ≤ 1) :
    state'.occurrences[o]? = state.occurrences[o]? := by
  by_cases hv : o ∈ (of model).occurrenceNames v
  · rw [((mem_occurrenceNames model).1 hv).2] at ho
    rw [dualize_of_occurrences_le_one state ho] at hstep
    cases hstep
    rfl
  · rcases WorkingRanges.dualize_cases hstep with ⟨rfl, -⟩ | ⟨-, -, -, -, -, hkeep⟩
    · rfl
    · exact hkeep o hv

theorem tighten_occurrences {vs : List String} {o : String}
    (ht : tighten .outer model (of model) state vs = .ok state')
    (ho : model.occurrences ((of model).owner o) ≤ 1) :
    state'.occurrences[o]? = state.occurrences[o]? := by
  induction vs generalizing state with
  | nil => cases ht; rfl
  | cons v vs ih =>
    rw [Tightened.tighten_cons] at ht
    obtain ⟨⟨state₁, monotonic⟩, hstep, ht⟩ := bind_eq_ok.1 ht
    rw [ih ht, dualize_occurrences hstep ho]

/-- Nothing is exchanged below a node without a variable that the model repeats. -/
theorem nodeAgainst_of_occurrences_le_one {n : ℕ} {a : Expr ℚ} (ha : model.preorder[n]? = some a)
    (hone : ∀ v ∈ a.variableOccurrences, model.occurrences v ≤ 1) : NodeAgainst model ranges n := by
  intro seeded state part hseed ht hpart
  rw [getElem?_preorder, hpart, Option.map_some, Option.some.injEq] at ha
  refine .inl (.of_disjoint fun o ho hex => hex.2 (tighten_occurrences ht (hone _ ?_)))
  rw [← ha, Expr.variableOccurrences_relabel]
  exact List.mem_map_of_mem ho

end

section
attribute [local instance] RealFunctions.zero

/-- The model `x - sqr(x)`. -/
def selfLessSquare : Expr ℚ := .binary .sub (.ofVariable "x") (.unary .square (.ofVariable "x"))

/-- The model `2 * x + (x - sqr(x))`. -/
def doublePlusSelfLessSquare : Expr ℚ :=
  .binary .add (.binary .mul (.constant 2) (.ofVariable "x")) selfLessSquare

/-- Over `[0, 1 / 2]` the third `x` is exchanged, which goes against the whole and against the
difference that it stands in. The bounds of both enclose their values, and those of the difference
are its least and its greatest value. -/
theorem nodeBounds_doublePlusSelfLessSquare :
    ∃ bounds, (Estimator.nodeBounds {} doublePlusSelfLessSquare
        ((∅ : Collection ℚ).insert "x" ⟨0, 1 / 2⟩)).run.run 0 = (.ok bounds, 1) ∧
      (∃ y, (0, y) ∈ bounds ∧
        ∀ t ∈ Icc (0 : ℝ) (1 / 2), 2 * t + (t - t ^ 2) ∈ Icc (y.lower : ℝ) y.upper) ∧
      ∃ y, (4, y) ∈ bounds ∧ (y.lower, y.upper) = (0, 1 / 4) ∧
        ∀ t ∈ Icc (0 : ℝ) (1 / 2), t - t ^ 2 ∈ Icc (y.lower : ℝ) y.upper := by
  have hvar : (Expr.ofVariable (α := ℚ) "x").IsPolynomial {"x"} := .var rfl
  have hmodel : doublePlusSelfLessSquare.IsPolynomial {"x"} :=
    .add (by simp) (by
      simpa using ⟨.mul (by simp) (by simpa using ⟨.const 2, hvar⟩),
        .sub (by simp) (by simpa using ⟨hvar, .square hvar⟩)⟩)
  have hnames : ∀ v ∈ doublePlusSelfLessSquare.variableOccurrences, v = "x" :=
    fun v hv => hmodel.mem_of_occurs hv
  have hgiven : ∀ v ∈ doublePlusSelfLessSquare.variableOccurrences,
      ∃ x, ((∅ : Collection ℚ).insert "x" ⟨0, 1 / 2⟩)[v]? = some x ∧ x.lower ≤ x.upper := by
    intro v hv
    rw [hnames v hv]
    exact ⟨_, Std.ExtTreeMap.getElem?_insert_self, by norm_num⟩
  have hranges := fun v hv => Collection.exists_toRanges (hgiven v hv)
  have houter : ({} : Estimator).approximation = .outer := rfl
  obtain ⟨bounds, hrun, hbounds⟩ := nodeBounds_encloses hmodel houter rfl hgiven 0
  obtain ⟨whole, hwhole, hmem⟩ := hbounds 0 doublePlusSelfLessSquare rfl
  obtain ⟨inner, hinner, hmem'⟩ := hbounds 4 selfLessSquare rfl
  have hagainst : NodeAgainst doublePlusSelfLessSquare
      (Collection.toRanges ((∅ : Collection ℚ).insert "x" ⟨0, 1 / 2⟩)) 0 :=
    nodeAgainst_zero (exchangesAgainst_of_directionsAsGiven hmodel hranges (by decide +kernel))
  have hagainst' : NodeAgainst doublePlusSelfLessSquare
      (Collection.toRanges ((∅ : Collection ℚ).insert "x" ⟨0, 1 / 2⟩)) 4 :=
    nodeAgainst_of_nodeShowsAgainst hmodel hranges (by decide +kernel)
  have hpoint {t : ℝ} (ht : t ∈ Icc (0 : ℝ) (1 / 2)) :
      ∀ v ∈ doublePlusSelfLessSquare.variableOccurrences,
∀ x, ((∅ : Collection ℚ).insert "x" ⟨0, 1 / 2⟩)[v]? = some x →
        t ∈ Icc (x.lower : ℝ) x.upper := by
    intro v hv x hx
    rw [hnames v hv, Std.ExtTreeMap.getElem?_insert_self, Option.some.injEq] at hx
    rw [← hx]
    simpa using ht
  have hends : ((Estimator.nodeBounds {} doublePlusSelfLessSquare
      ((∅ : Collection ℚ).insert "x" ⟨0, 1 / 2⟩)).run.run 0).1.toOption.map
        (fun bounds => bounds.map fun p => (p.1, p.2.lower, p.2.upper)) = some
      [(0, 0, 5 / 4), (1, 0, 1), (2, 2, 2), (3, 0, 1 / 2), (4, 0, 1 / 4), (5, 0, 1 / 2),
        (6, 0, 1 / 4), (7, 0, 1 / 2)] := by decide +kernel
  refine ⟨bounds, hrun, ⟨whole, (hwhole _).2 rfl, fun t ht => ?_⟩, inner, (hinner _).2 rfl, ?_,
    fun t ht => ?_⟩
  · have hvalue : doublePlusSelfLessSquare.value (fun _ => t) = 2 * t + (t - t ^ 2) := by
      simp [doublePlusSelfLessSquare, selfLessSquare, Expr.value, Expr.values,
        Symbol.value, Expr.binary, Expr.unary, Expr.ofVariable, Expr.weighted, Expr.constant]
    rw [← hvalue]
    exact hmem hagainst _ (hpoint ht)
  · rw [hrun, Except.toOption, Option.map_some, Option.some.injEq] at hends
    have hmap := List.mem_map_of_mem (f := fun p : ℕ × Interval ℚ => (p.1, p.2.lower, p.2.upper))
      ((hinner _).2 rfl)
    rw [hends] at hmap
    simpa using hmap
  · have hvalue : selfLessSquare.value (fun _ => t) = t - t ^ 2 := by
      simp [selfLessSquare, Expr.value, Expr.values, Symbol.value, Expr.binary, Expr.unary,
        Expr.ofVariable, Expr.weighted]
    rw [← hvalue]
    exact hmem' hagainst' _ (hpoint ht)

/-- Tightening exchanges the third `x`, which goes against the whole, but the difference that it
stands in goes neither way over `[0, 1]`: the bounds of `x - sqr(x)` are zero, and its value at
`1 / 2` is `1 / 4`. -/
theorem nodeBounds_selfLessSquare :
    ∃ bounds, (Estimator.nodeBounds {} doublePlusSelfLessSquare
        ((∅ : Collection ℚ).insert "x" ⟨0, 1⟩)).run.run 0 = (.ok bounds, 1) ∧
      bounds.map (fun p => (p.1, p.2.lower, p.2.upper)) =
        [(0, 0, 2), (1, 0, 2), (2, 2, 2), (3, 0, 1), (4, 0, 0), (5, 0, 1), (6, 0, 1), (7, 0, 1)] ∧
      doublePlusSelfLessSquare.preorder[4]? = some selfLessSquare ∧
      selfLessSquare.value (fun _ => 1 / 2) = 1 / 4 := by
  let run := (Estimator.nodeBounds {} doublePlusSelfLessSquare
    ((∅ : Collection ℚ).insert "x" ⟨0, 1⟩)).run.run 0
  have hrun : run.1.toOption.map (fun bounds => bounds.map fun p => (p.1, p.2.lower, p.2.upper)) =
      some [(0, 0, 2), (1, 0, 2), (2, 2, 2), (3, 0, 1), (4, 0, 0), (5, 0, 1), (6, 0, 1),
        (7, 0, 1)] := by
    decide +kernel
  have hcount : run.2 = 1 := by decide +kernel
  obtain ⟨bounds, hbounds, hends⟩ := Option.map_eq_some_iff.1 hrun
  refine ⟨bounds, Prod.ext (toOption_eq_some.1 hbounds) hcount, hends, rfl, ?_⟩
  simp [selfLessSquare, Expr.value, Expr.values, Symbol.value, Expr.binary, Expr.unary,
    Expr.ofVariable, Expr.weighted]
  norm_num

end

end ModalBounds
