import Mathlib
import ModalBounds.Proofs.Evaluation.Recursion
import ModalBounds.Proofs.Expr.ChainRule
import ModalBounds.Proofs.Expr.Occurrence

/-!
# How derivatives grow

A derivative is at most seven times as deep as the expression (`depth_derivativeAt_le`), and its
length is at most three times the square of the expression's (`size_derivativeAt_le`). The depth
comes from the quotient rule, which takes a product as denominator; the square comes from the
product rule, which repeats the factors in each of its terms.
-/

namespace ModalBounds.Expr

variable {α : Type}

/-! ### Depth -/

section
variable {e : Expr α} {args : List (Expr α)} {D : ℕ}

theorem depthAll_le_iff : depthAll args ≤ D ↔ ∀ a ∈ args, a.depth ≤ D := by
  induction args with
  | nil => simp [depthAll]
  | cons a args ih => rw [depthAll, Nat.max_le, ih, List.forall_mem_cons]

theorem depth_node_le {s : Symbol α} : (node s args).depth ≤ D + 1 ↔ ∀ a ∈ args, a.depth ≤ D := by
  rw [depth, ← depthAll_le_iff]
  omega

theorem one_le_depth (e : Expr α) : 1 ≤ e.depth := by
  cases e
  rw [depth]
  omega

theorem depth_relabel (f : String → String) (e : Expr α) : (e.relabel f).depth = e.depth := by
  induction e with
  | node s args ih =>
    have hargs : depthAll (args.map (relabel f)) = depthAll args := by
      clear s
      induction args with
      | nil => rfl
      | cons a args iha =>
        rw [List.forall_mem_cons] at ih
        rw [List.map_cons, depthAll, depthAll, ih.1, iha ih.2]
    rw [relabel_node, depth, depth, hargs]

end

section
variable [Scalar α] {a b c d : Expr α} {args ds : List (Expr α)} {D : ℕ}

omit [Scalar α] in
theorem depth_constant_le (value : α) (hD : 1 ≤ D) : (constant value).depth ≤ D := hD

omit [Scalar α] in
theorem depth_unary_le {s : Symbol α} (ha : a.depth ≤ D) : (unary s a).depth ≤ D + 1 :=
  depth_node_le.2 (by simpa using ha)

omit [Scalar α] in
theorem depth_binary_le {s : Symbol α} (ha : a.depth ≤ D) (hb : b.depth ≤ D) :
    (binary s a b).depth ≤ D + 1 :=
  depth_node_le.2 (by simpa using ⟨ha, hb⟩)

omit [Scalar α] in
theorem forall_depth_pair (ha : a.depth ≤ D) (hb : b.depth ≤ D) : ∀ e ∈ [a, b], e.depth ≤ D := by
  simpa using ⟨ha, hb⟩

omit [Scalar α] in
theorem depth_nonConstants_le (h : ∀ a ∈ args, a.depth ≤ D) :
    ∀ a ∈ nonConstants args, a.depth ≤ D :=
  fun a ha => h a (List.mem_of_mem_filter ha)

theorem depth_foldSum_le (hD : 1 ≤ D) (h : ∀ a ∈ args, a.depth ≤ D) :
    (foldSum args).depth ≤ D + 1 := by
  have hrest : ∀ a ∈ nonConstants args ++
      (if (constants args).foldl (· + ·) 0 != 0
        then [constant ((constants args).foldl (· + ·) 0)] else []),
      a.depth ≤ D := by
    refine List.forall_mem_append.2 ⟨depth_nonConstants_le h, ?_⟩
    split
    · simpa using depth_constant_le _ hD
    · simp
  rw [foldSum]
  generalize nonConstants args ++ _ = rest at hrest
  rcases rest with _ | ⟨a, _ | ⟨b, rest⟩⟩
  · exact depth_constant_le _ (by omega)
  · have := hrest a (by simp)
    show a.depth ≤ D + 1
    omega
  · exact depth_node_le.2 hrest

theorem depth_foldNeg_le (ha : a.depth ≤ D) : (foldNeg a).depth ≤ D + 1 := by
  unfold foldNeg
  split
  · exact depth_constant_le _ (by omega)
  · split
    · rename_i b _
      have := depth_node_le.1 (Nat.le_succ_of_le ha) b (by simp)
      omega
    · exact depth_unary_le ha

theorem depth_foldDifference_le (ha : a.depth ≤ D) (hb : b.depth ≤ D) :
    (foldDifference a b).depth ≤ D + 1 := by
  unfold foldDifference
  split
  · exact depth_constant_le _ (by omega)
  · split
    · exact depth_foldNeg_le hb
    · exact depth_binary_le ha hb
  · split
    · omega
    · exact depth_binary_le ha hb
  · exact depth_binary_le ha hb

omit [Scalar α] in
theorem depth_plainProduct_le (h : ∀ a ∈ args, a.depth ≤ D) :
    (plainProduct args).depth ≤ D + 1 := by
  unfold plainProduct
  split
  · have := h _ (List.mem_singleton_self _)
    omega
  · exact depth_node_le.2 h

theorem depth_foldProduct_le (hD : 1 ≤ D) (h : ∀ a ∈ args, a.depth ≤ D) :
    (foldProduct args).depth ≤ D + 2 := by
  have hplain := depth_plainProduct_le (depth_nonConstants_le h)
  unfold foldProduct
  dsimp only
  split_ifs
  · exact depth_constant_le _ (by omega)
  · exact depth_constant_le _ (by omega)
  · exact depth_foldNeg_le hplain
  · refine (depth_node_le.2 (List.forall_mem_cons.2 ⟨?_, depth_nonConstants_le h⟩)).trans
      (Nat.le_succ _)
    exact depth_constant_le _ hD
  · omega

theorem depth_foldQuotient_le (ha : a.depth ≤ D) (hb : b.depth ≤ D) :
    (foldQuotient a b).depth ≤ D + 1 := by
  unfold foldQuotient
  split
  · exact depth_constant_le _ (by omega)
  · split
    · omega
    · split
      · split
        · exact depth_constant_le _ (by omega)
        · exact depth_binary_le ha hb
      · exact depth_binary_le ha hb

theorem depth_foldSquare_le (ha : a.depth ≤ D) : (foldSquare a).depth ≤ D + 1 := by
  unfold foldSquare
  split
  · exact depth_constant_le _ (by omega)
  · exact depth_unary_le ha

theorem depth_foldAnalyticQuotient_le (ha : a.depth ≤ D) (hb : b.depth ≤ D) :
    (foldAnalyticQuotient a b).depth ≤ D + 1 := by
  unfold foldAnalyticQuotient
  split
  · exact depth_constant_le _ (by omega)
  · exact depth_binary_le ha hb

theorem depth_productRule_le (hD : 1 ≤ D) (h : ∀ a ∈ args, a.depth ≤ D)
    (hd : ∀ d ∈ ds, d.depth ≤ D) : (productRule args ds).depth ≤ D + 3 :=
  depth_foldSum_le (by omega)
    (forall_mem_productTerms (fun _ => depth_foldProduct_le hD) (by simp) h hd)

theorem depth_quotientRule_le (hD : 1 ≤ D) (ha : a.depth ≤ D) (hb : b.depth ≤ D) (hc : c.depth ≤ D)
    (hd : d.depth ≤ D) : (quotientRule a b c d).depth ≤ D + 4 := by
  have hnumerator := depth_foldDifference_le (depth_foldProduct_le hD (forall_depth_pair hb hc))
    (depth_foldProduct_le hD (forall_depth_pair ha hd))
  exact depth_foldQuotient_le hnumerator ((depth_foldSquare_le hc).trans (by omega))

theorem depth_powerRule_le (hD : 1 ≤ D) (ha : a.depth ≤ D) (hb : b.depth ≤ D) (n : α) :
    (powerRule a b n).depth ≤ D + 5 := by
  unfold powerRule
  split
  · exact depth_constant_le _ (by omega)
  · refine depth_foldProduct_le (by omega) (forall_depth_pair ?_ (by omega))
    split_ifs
    · exact depth_constant_le _ (by omega)
    · have := depth_foldProduct_le hD (forall_depth_pair (depth_constant_le ((2 : ℕ) : α) hD) ha)
      omega
    · exact depth_foldProduct_le (by omega) (forall_depth_pair (depth_constant_le _ (by omega))
        (depth_binary_le ha (depth_constant_le _ hD)))

theorem depth_unaryRule_le (hD : 1 ≤ D) (ha : a.depth ≤ D) (hd : d.depth ≤ D) (x : String)
    (s : Symbol α) : (derivativeRule x s [a] [d]).depth ≤ D + 7 := by
  cases s with
  | add => exact (depth_foldSum_le hD (by simpa using hd)).trans (by omega)
  | sub => exact (depth_foldNeg_le hd).trans (by omega)
  | mul => exact (depth_productRule_le hD (by simpa using ha) (by simpa using hd)).trans (by omega)
  | div =>
    have hquotient := depth_foldQuotient_le (hd.trans (by omega)) (depth_foldSquare_le ha)
    exact (depth_foldNeg_le hquotient).trans (by omega)
  | sin =>
    have hcos := depth_unary_le (s := .cos) ha
    exact (depth_foldProduct_le (by omega) (forall_depth_pair hcos (by omega))).trans (by omega)
  | cos =>
    have hsin := depth_unary_le (s := .sin) ha
    have hproduct := depth_foldProduct_le (by omega) (forall_depth_pair hsin (hd.trans (by omega)))
    exact (depth_foldNeg_le hproduct).trans (by omega)
  | tan =>
    have hsquare := depth_foldSquare_le (depth_unary_le (s := .cos) ha)
    exact (depth_foldQuotient_le (by omega) hsquare).trans (by omega)
  | tanh =>
    have hsquare := depth_foldSquare_le (depth_unary_le (s := .tanh) ha)
    have hdifference := depth_foldDifference_le (depth_constant_le 1 (by omega)) hsquare
    exact (depth_foldProduct_le (by omega) (forall_depth_pair (by omega) hdifference)).trans
      (by omega)
  | exp =>
    have hexp := depth_unary_le (s := .exp) ha
    exact (depth_foldProduct_le (by omega) (forall_depth_pair hexp (by omega))).trans (by omega)
  | log => exact (depth_foldQuotient_le hd ha).trans (by omega)
  | square =>
    have htwo : (constant ((2 : ℕ) : α)).depth ≤ D := depth_constant_le _ hD
    exact (depth_foldProduct_le hD (List.forall_mem_cons.2 ⟨htwo, forall_depth_pair ha hd⟩)).trans
      (by omega)
  | sqrt =>
    have hsqrt := depth_unary_le (s := .sqrt) ha
    have htwo : (constant ((2 : ℕ) : α)).depth ≤ D + 1 := depth_constant_le _ (by omega)
    have hproduct := depth_foldProduct_le (by omega) (forall_depth_pair htwo hsqrt)
    exact (depth_foldQuotient_le (by omega) hproduct).trans (by omega)
  | abs =>
    have hquotient := depth_foldQuotient_le (ha.trans (by omega)) (depth_unary_le (s := .abs) ha)
    exact (depth_foldProduct_le (by omega) (forall_depth_pair (by omega) hquotient)).trans
      (by omega)
  | subFunction name => exact hd.trans (by omega)
  | var | const | power | analyticQuotient | cube | cbrt | root | logistic | erf | min | max =>
    exact depth_constant_le _ (by omega)

theorem depth_analyticQuotientRule_le (hD : 1 ≤ D) (ha : a.depth ≤ D) (hb : b.depth ≤ D)
    (hc : c.depth ≤ D)
    (hd : d.depth ≤ D) (x : String) :
    (derivativeRule x .analyticQuotient [a, b] [c, d]).depth ≤ D + 5 := by
  have hcross := depth_foldProduct_le hD (List.forall_mem_cons.2 ⟨ha, forall_depth_pair hb hd⟩)
  have hquotient := depth_foldAnalyticQuotient_le hcross (hb.trans (by omega))
  have hone : (constant (1 : α)).depth ≤ D + 1 := depth_constant_le 1 (by omega)
  have hsum := depth_foldSum_le (by omega) (forall_depth_pair hone (depth_foldSquare_le hb))
  have hfirst := depth_foldAnalyticQuotient_le hc hb
  exact depth_foldDifference_le (hfirst.trans (by omega))
    (depth_foldQuotient_le hquotient (hsum.trans (by omega)))

theorem depth_naryRule_le (hD : 1 ≤ D) (h : ∀ e ∈ a :: b :: args, e.depth ≤ D)
    (hd : ∀ e ∈ c :: d :: ds, e.depth ≤ D) (hlen : args.length = ds.length) (x : String)
    (s : Symbol α) : (derivativeRule x s (a :: b :: args) (c :: d :: ds)).depth ≤ D + 7 := by
  have hargs := List.forall_mem_cons.1 h
  have hds := List.forall_mem_cons.1 hd
  cases s with
  | add => exact (depth_foldSum_le hD hd).trans (by omega)
  | sub =>
    exact (depth_foldDifference_le (hds.1.trans (by omega)) (depth_foldSum_le hD hds.2)).trans
      (by omega)
  | mul => exact (depth_productRule_le hD h hd).trans (by omega)
  | div =>
    rcases args with _ | ⟨b', args⟩
    · obtain rfl : ds = [] := List.length_eq_zero_iff.1 hlen.symm
      exact (depth_quotientRule_le hD hargs.1 hds.1 (hargs.2 b (by simp)) (hds.2 d (by simp))).trans
        (by omega)
    · obtain ⟨d', ds, rfl⟩ : ∃ d' ds', ds = d' :: ds' :=
        List.exists_cons_of_length_eq_add_one hlen.symm
      -- the denominator is a product, and its derivative the one that the product rule gives
      have hproduct := (depth_node_le (s := .mul)).2 hargs.2
      have hderivative := depth_productRule_le hD hargs.2 hds.2
      refine depth_quotientRule_le (D := D + 3) (by omega) (hargs.1.trans (by omega))
        (hds.1.trans (by omega))
        (hproduct.trans (by omega)) ?_
      split
      · exact hderivative
      · exact depth_constant_le _ (by omega)
  | power =>
    rcases args with _ | ⟨b', args⟩
    · rw [derivativeRule]
      split
      · exact (depth_powerRule_le hD hargs.1 hds.1 _).trans (by omega)
      · exact depth_constant_le _ (by omega)
    · exact depth_constant_le _ (by omega)
  | analyticQuotient =>
    rcases args with _ | ⟨b', args⟩
    · obtain rfl : ds = [] := List.length_eq_zero_iff.1 hlen.symm
      exact (depth_analyticQuotientRule_le hD hargs.1 (hargs.2 b (by simp)) hds.1
        (hds.2 d (by simp)) x).trans
        (by omega)
    · exact depth_constant_le _ (by omega)
  | _ => exact depth_constant_le _ (by omega)

/-- No rule puts more than seven levels above the operands and their derivatives. -/
theorem depth_derivativeRule_le (hD : 1 ≤ D) (x : String) (s : Symbol α) (hne : args ≠ [])
    (hlen : args.length = ds.length) (h : ∀ a ∈ args, a.depth ≤ D) (hd : ∀ d ∈ ds, d.depth ≤ D) :
    (derivativeRule x s args ds).depth ≤ D + 7 := by
  rcases args with _ | ⟨a, _ | ⟨b, args⟩⟩
  · exact absurd rfl hne
  · obtain ⟨d, rfl⟩ := List.length_eq_one_iff.1 hlen.symm
    exact depth_unaryRule_le hD (h a (by simp)) (hd d (by simp)) x s
  · rcases ds with _ | ⟨c, _ | ⟨d, ds⟩⟩
    · cases hlen
    · cases hlen
    · exact depth_naryRule_le hD h hd (by simpa using hlen) x s

/-- What holds of constants, and of a rule where it holds of the operands, holds of a derivative. -/
theorem derivativeAt_keeps {x : String} {R : Expr α → Expr α → Prop}
    (hconstant : ∀ e value, R e (constant value))
    (hrule : ∀ s args ds,
      args ≠ [] → List.Forall₂ R args ds → R (node s args) (derivativeRule x s args ds))
    {e d : Expr α} {first : ℕ} (h : derivativeAt x first e = .ok d) : R e d := by
  refine derivativeAt_induction (fun e _ => hconstant e 0) (fun _ _ _ => hconstant _ _)
    (fun _ _ => hconstant _ 0)
    (fun s args ds first hleaf _ hm hall => hrule s args ds ?_ hall) h
  rintro rfl
  cases s <;> simp [mentions, mentionsAny, variableName?, isLeafSymbol] at hm hleaf

/-- A derivative is at most seven times as deep as the expression. -/
theorem depth_derivativeAt_le {x : String} {first : ℕ} {e d : Expr α}
    (h : derivativeAt x first e = .ok d) : d.depth ≤ 7 * e.depth := by
  refine derivativeAt_keeps (R := fun e d => d.depth ≤ 7 * e.depth) (fun e value => ?_)
    (fun s args ds hne hall => ?_) h
  · exact depth_constant_le value (by have := one_le_depth e; omega)
  · obtain ⟨a, ha⟩ := List.exists_mem_of_ne_nil args hne
    have hargs : ∀ a ∈ args, a.depth ≤ depthAll args := depthAll_le_iff.1 le_rfl
    have hds : ∀ d ∈ ds, d.depth ≤ 7 * depthAll args := by
      intro d hd
      obtain ⟨a, ha, hle⟩ := exists_of_forall₂ hall.flip d hd
      have := hargs a ha
      omega
    have hpos : 1 ≤ depthAll args := (one_le_depth a).trans (hargs a ha)
    have hrule := depth_derivativeRule_le (D := 7 * depthAll args) (by omega) x s hne hall.length_eq
      (fun a ha => (hargs a ha).trans (by omega)) hds
    rw [depth]
    omega

end

/-! ### Length -/

section
variable {e : Expr α} {l l' args ds : List (Expr α)}

theorem one_le_size (e : Expr α) : 1 ≤ e.size := by
  cases e
  rw [size]
  omega

theorem length_le_sizeAll (l : List (Expr α)) : l.length ≤ sizeAll l := by
  induction l with
  | nil => rfl
  | cons a l ih =>
    have := one_le_size a
    rw [List.length_cons, sizeAll]
    omega

theorem sizeAll_append (l l' : List (Expr α)) : sizeAll (l ++ l') = sizeAll l + sizeAll l' := by
  rw [sizeAll_eq, sizeAll_eq, sizeAll_eq, List.map_append, List.sum_append]

theorem sizeAll_nonConstants_le (l : List (Expr α)) : sizeAll (nonConstants l) ≤ sizeAll l := by
  rw [sizeAll_eq, sizeAll_eq]
  exact (List.filter_sublist.map size).sum_le_sum fun _ _ => Nat.zero_le _

end

section
variable [Scalar α] (a b c d : Expr α) (args ds : List (Expr α))

omit [Scalar α] in
theorem size_unary (s : Symbol α) : (unary s a).size = 1 + a.size := rfl

omit [Scalar α] in
theorem size_binary (s : Symbol α) : (binary s a b).size = 1 + (a.size + b.size) := rfl

theorem size_foldSum_le : (foldSum args).size ≤ 2 + sizeAll args := by
  have hrest : sizeAll (nonConstants args ++
      (if (constants args).foldl (· + ·) 0 != 0
        then [constant ((constants args).foldl (· + ·) 0)] else [])) ≤
        sizeAll args + 1 := by
    have := sizeAll_nonConstants_le args
    rw [sizeAll_append]
    split
    · exact Nat.add_le_add this le_rfl
    · exact this.trans (Nat.le_succ _)
  rw [foldSum]
  generalize nonConstants args ++ _ = rest at hrest
  rcases rest with _ | ⟨a, _ | ⟨b, rest⟩⟩
  · show 1 ≤ _
    omega
  · rw [sizeAll] at hrest
    show a.size ≤ _
    omega
  · show 1 + sizeAll (a :: b :: rest) ≤ _
    omega

theorem size_foldNeg_le : (foldNeg a).size ≤ 1 + a.size := by
  unfold foldNeg
  split
  · exact Nat.le_add_right 1 _
  · split
    · rename_i b _
      show b.size ≤ 1 + (1 + (b.size + 0))
      omega
    · rw [size_unary]

theorem size_foldDifference_le : (foldDifference a b).size ≤ 1 + a.size + b.size := by
  have hneg := size_foldNeg_le b
  have hbinary := size_binary a b .sub
  unfold foldDifference
  split
  · show 1 ≤ _
    omega
  · split <;> omega
  · split <;> omega
  · omega

omit [Scalar α] in
theorem size_plainProduct_le : (plainProduct args).size ≤ 1 + sizeAll args := by
  unfold plainProduct
  split
  · rw [sizeAll]
    omega
  · rfl

theorem size_foldProduct_le : (foldProduct args).size ≤ 2 + sizeAll args := by
  have hrest := sizeAll_nonConstants_le args
  have hplain := size_plainProduct_le (nonConstants args)
  have hneg := size_foldNeg_le (plainProduct (nonConstants args))
  unfold foldProduct
  dsimp only
  split_ifs
  · show 1 ≤ _
    omega
  · show 1 ≤ _
    omega
  · omega
  · show 1 + (1 + sizeAll (nonConstants args)) ≤ _
    omega
  · omega

theorem size_foldQuotient_le : (foldQuotient a b).size ≤ 1 + a.size + b.size := by
  have hbinary := size_binary a b .div
  have hconstant (value : α) : (constant value).size ≤ 1 + a.size + b.size := by
    show 1 ≤ _
    omega
  unfold foldQuotient
  split
  · exact hconstant 0
  · split
    · omega
    · split
      · split
        · exact hconstant _
        · omega
      · omega

theorem size_foldSquare_le : (foldSquare a).size ≤ 1 + a.size := by
  unfold foldSquare
  split
  · exact Nat.le_add_right 1 _
  · rw [size_unary]

theorem size_foldAnalyticQuotient_le : (foldAnalyticQuotient a b).size ≤ 1 + a.size + b.size := by
  unfold foldAnalyticQuotient
  split
  · show 1 ≤ _
    omega
  · rw [size_binary]
    omega

theorem sizeAll_productTerms_le (before : List (Expr α)) :
    sizeAll (productTerms before args ds) + sizeAll args ≤
      args.length * (2 + sizeAll before + sizeAll args) + sizeAll ds := by
  induction args generalizing before ds with
  | nil => simp [productTerms, sizeAll]
  | cons f args ih =>
    cases ds with
    | nil =>
      have hpos : 0 < (f :: args).length := by simp
      have := Nat.le_mul_of_pos_left (2 + sizeAll before + sizeAll (f :: args)) hpos
      show 0 + sizeAll (f :: args) ≤ _ + 0
      omega
    | cons d ds =>
      have hterm := size_foldProduct_le (before ++ d :: args)
      have hrest := ih ds (before ++ [f])
      rw [sizeAll_append] at hterm hrest
      simp only [productTerms, sizeAll, List.length_cons, Nat.succ_mul, Nat.add_zero]
        at hterm hrest ⊢
      rw [show 2 + sizeAll before + (f.size + sizeAll args) =
        2 + (sizeAll before + f.size) + sizeAll args by omega]
      omega

theorem size_productRule_le :
    (productRule args ds).size + sizeAll args ≤
      2 + args.length * (2 + sizeAll args) + sizeAll ds := by
  have hsum := size_foldSum_le (productTerms [] args ds)
  have hterms := sizeAll_productTerms_le args ds []
  rw [sizeAll, Nat.add_zero] at hterms
  rw [productRule]
  omega

theorem size_quotientRule_le :
    (quotientRule a b c d).size ≤ 7 + a.size + b.size + 2 * c.size + d.size := by
  have hleft := size_foldProduct_le [b, c]
  have hright := size_foldProduct_le [a, d]
  have hnumerator := size_foldDifference_le (foldProduct [b, c]) (foldProduct [a, d])
  have hsquare := size_foldSquare_le c
  have hquotient :=
    size_foldQuotient_le (foldDifference (foldProduct [b, c]) (foldProduct [a, d])) (foldSquare c)
  simp only [sizeAll] at hleft hright
  rw [quotientRule]
  omega

theorem size_powerRule_le (n : α) : (powerRule a b n).size ≤ 7 + a.size + b.size := by
  have hproduct (outer : Expr α) (houter : outer.size ≤ 5 + a.size) :
      (foldProduct [outer, b]).size ≤ 7 + a.size + b.size := by
    have := size_foldProduct_le [outer, b]
    simp only [sizeAll] at this
    omega
  unfold powerRule
  split
  · show 1 ≤ _
    omega
  · apply hproduct
    split_ifs
    · show 1 ≤ _
      omega
    · have := size_foldProduct_le [constant ((2 : ℕ) : α), a]
      simp only [sizeAll] at this
      have hconstant : (constant ((2 : ℕ) : α)).size = 1 := rfl
      omega
    · have := size_foldProduct_le [constant n, binary .power a (constant (n - 1))]
      simp only [sizeAll, size_binary] at this
      have hconstant (value : α) : (constant value).size = 1 := rfl
      rw [hconstant, hconstant] at this
      omega

variable {a b c d args ds}

/-- The derivative of an operand is at most three times as long as the square of its length. -/
def SizesBounded (args ds : List (Expr α)) :
    Prop := List.Forall₂ (fun a d => d.size ≤ 3 * a.size ^ 2) args ds

omit [Scalar α] in
theorem SizesBounded.sizeAll_le (h : SizesBounded args ds) :
    args.length * sizeAll args + sizeAll ds ≤ 3 * sizeAll args ^ 2 + sizeAll args := by
  induction h with
  | nil => simp [sizeAll]
  | @cons a d args ds hd _ ih =>
    have hlength := length_le_sizeAll args
    have ha := one_le_size a
    have hrepeat : args.length * a.size ≤ sizeAll args * a.size := Nat.mul_le_mul_right _ hlength
    have hone : sizeAll args ≤ sizeAll args * a.size := Nat.le_mul_of_pos_right _ ha
    rw [sizeAll, sizeAll, List.length_cons]
    nlinarith

theorem SizesBounded.size_productRule_le (h : SizesBounded args ds) :
    (productRule args ds).size ≤ 2 + 2 * sizeAll args + 3 * sizeAll args ^ 2 := by
  have hlength := length_le_sizeAll args
  have hrule := Expr.size_productRule_le args ds
  have hsum := h.sizeAll_le
  rw [Nat.mul_add] at hrule
  omega

theorem size_unaryRule_le (x : String) (s : Symbol α) :
    (derivativeRule x s [a] [d]).size ≤ 6 + 2 * a.size + d.size := by
  have hone (value : α) : (constant value).size = 1 := rfl
  cases s with
  | add =>
    have hsum := size_foldSum_le [d]
    simp only [sizeAll] at hsum
    show (foldSum [d]).size ≤ _
    omega
  | sub =>
    have hneg := size_foldNeg_le d
    show (foldNeg d).size ≤ _
    omega
  | mul =>
    have hproduct := size_productRule_le [a] [d]
    simp only [sizeAll, List.length_singleton] at hproduct
    show (productRule [a] [d]).size ≤ _
    omega
  | div =>
    have hsquare := size_foldSquare_le a
    have hquotient := size_foldQuotient_le d (foldSquare a)
    have hneg := size_foldNeg_le (foldQuotient d (foldSquare a))
    show (foldNeg (foldQuotient d (foldSquare a))).size ≤ _
    omega
  | sin =>
    have hproduct := size_foldProduct_le [unary .cos a, d]
    simp only [sizeAll, size_unary] at hproduct
    show (foldProduct [unary .cos a, d]).size ≤ _
    omega
  | cos =>
    have hproduct := size_foldProduct_le [unary .sin a, d]
    have hneg := size_foldNeg_le (foldProduct [unary .sin a, d])
    simp only [sizeAll, size_unary] at hproduct
    show (foldNeg (foldProduct [unary .sin a, d])).size ≤ _
    omega
  | tan =>
    have hsquare := size_foldSquare_le (unary .cos a)
    have hquotient := size_foldQuotient_le d (foldSquare (unary .cos a))
    rw [size_unary] at hsquare
    show (foldQuotient d (foldSquare (unary .cos a))).size ≤ _
    omega
  | tanh =>
    have hsquare := size_foldSquare_le (unary .tanh a)
    have hdifference := size_foldDifference_le (constant 1) (foldSquare (unary .tanh a))
    have hproduct :=
      size_foldProduct_le [d, foldDifference (constant 1) (foldSquare (unary .tanh a))]
    rw [size_unary] at hsquare
    simp only [sizeAll, hone] at hdifference hproduct
    show (foldProduct [d, foldDifference (constant 1) (foldSquare (unary .tanh a))]).size ≤ _
    omega
  | exp =>
    have hproduct := size_foldProduct_le [unary .exp a, d]
    simp only [sizeAll, size_unary] at hproduct
    show (foldProduct [unary .exp a, d]).size ≤ _
    omega
  | log =>
    have hquotient := size_foldQuotient_le d a
    show (foldQuotient d a).size ≤ _
    omega
  | square =>
    have hproduct := size_foldProduct_le [constant ((2 : ℕ) : α), a, d]
    simp only [sizeAll, hone] at hproduct
    show (foldProduct [constant ((2 : ℕ) : α), a, d]).size ≤ _
    omega
  | sqrt =>
    have hproduct := size_foldProduct_le [constant ((2 : ℕ) : α), unary .sqrt a]
    have hquotient := size_foldQuotient_le d (foldProduct [constant ((2 : ℕ) : α), unary .sqrt a])
    simp only [sizeAll, hone, size_unary] at hproduct
    show (foldQuotient d (foldProduct [constant ((2 : ℕ) : α), unary .sqrt a])).size ≤ _
    omega
  | abs =>
    have hquotient := size_foldQuotient_le a (unary .abs a)
    have hproduct := size_foldProduct_le [d, foldQuotient a (unary .abs a)]
    rw [size_unary] at hquotient
    simp only [sizeAll] at hproduct
    show (foldProduct [d, foldQuotient a (unary .abs a)]).size ≤ _
    omega
  | subFunction name =>
    show d.size ≤ _
    omega
  | var | const | power | analyticQuotient | cube | cbrt | root | logistic | erf | min | max =>
    show 1 ≤ _
    omega

theorem size_analyticQuotientRule_le (x : String) :
    (derivativeRule x .analyticQuotient [a, b] [c, d]).size ≤
    10 + a.size + 4 * b.size + c.size + d.size := by
  have hcross := size_foldProduct_le [a, b, d]
  have hquotient := size_foldAnalyticQuotient_le (foldProduct [a, b, d]) b
  have hsquare := size_foldSquare_le b
  have hsum := size_foldSum_le [constant 1, foldSquare b]
  have hfirst := size_foldAnalyticQuotient_le c b
  have hsecond := size_foldQuotient_le (foldAnalyticQuotient (foldProduct [a, b, d]) b)
    (foldSum [constant 1, foldSquare b])
  have hdifference := size_foldDifference_le (foldAnalyticQuotient c b)
    (foldQuotient (foldAnalyticQuotient (foldProduct [a, b, d]) b)
      (foldSum [constant 1, foldSquare b]))
  have hone : (constant (1 : α)).size = 1 := rfl
  simp only [sizeAll, hone] at hcross hsum
  rw [derivativeRule]
  omega

theorem size_quotientsRule_le (x : String) (hd : d.size ≤ 3 * a.size ^ 2)
    (h : SizesBounded args ds) :
    (quotientRule a d (node .mul args)
      (if mentionsAny x args then productRule args ds else constant 0)).size ≤
      11 + a.size + 4 * sizeAll args + 3 * a.size ^ 2 + 3 * sizeAll args ^ 2 := by
  have hproduct : (if mentionsAny x args then productRule args ds else constant 0).size ≤
      2 + 2 * sizeAll args + 3 * sizeAll args ^ 2 := by
    split
    · exact h.size_productRule_le
    · show 1 ≤ _
      omega
  have hrule := size_quotientRule_le a d (node .mul args)
    (if mentionsAny x args then productRule args ds else constant 0)
  rw [size] at hrule
  omega

theorem size_naryRule_le (x : String) (s : Symbol α)
    (h : SizesBounded (a :: b :: args) (c :: d :: ds)) :
    (derivativeRule x s (a :: b :: args) (c :: d :: ds)).size ≤
      3 + 6 * sizeAll (a :: b :: args) + 3 * sizeAll (a :: b :: args) ^ 2 := by
  have ha := one_le_size a
  have hb := one_le_size b
  have hsum : 2 * sizeAll (a :: b :: args) + sizeAll (c :: d :: ds) ≤
      3 * sizeAll (a :: b :: args) ^ 2 + sizeAll (a :: b :: args) := by
    have hlength : 2 ≤ (a :: b :: args).length := by simp
    have := Nat.mul_le_mul_right (sizeAll (a :: b :: args)) hlength
    have := h.sizeAll_le
    omega
  cases s with
  | add =>
    have hterms := size_foldSum_le (c :: d :: ds)
    show (foldSum (c :: d :: ds)).size ≤ _
    omega
  | sub =>
    have hterms := size_foldSum_le (d :: ds)
    have hdifference := size_foldDifference_le c (foldSum (d :: ds))
    have hcons : sizeAll (c :: d :: ds) = c.size + sizeAll (d :: ds) := rfl
    show (foldDifference c (foldSum (d :: ds))).size ≤ _
    omega
  | mul =>
    have hproduct := h.size_productRule_le
    show (productRule (a :: b :: args) (c :: d :: ds)).size ≤ _
    omega
  | div =>
    obtain _ | ⟨hc, hrest⟩ := h
    obtain _ | ⟨hd, _ | ⟨he, hrest'⟩⟩ := id hrest
    · have hrule := size_quotientRule_le a c b d
      simp only [sizeAll, Nat.add_zero] at hsum ⊢
      show (quotientRule a c b d).size ≤ _
      omega
    · rename_i b' d'' args ds
      have hrule := size_quotientsRule_le x hc hrest
      have hpos : 1 ≤ a.size * sizeAll (b :: b' :: args) :=
        Nat.mul_pos ha (hb.trans (Nat.le_add_right _ _))
      rw [sizeAll, add_sq, Nat.mul_assoc 2]
      exact hrule.trans (by omega)
  | power =>
    obtain _ | ⟨hc, _ | ⟨hd, _ | ⟨he, hrest⟩⟩⟩ := h
    · simp only [sizeAll, Nat.add_zero] at hsum ⊢
      rw [derivativeRule]
      split
      · rename_i n _
        have hrule := size_powerRule_le a c n
        omega
      · show 1 ≤ _
        omega
    · show 1 ≤ _
      omega
  | analyticQuotient =>
    obtain _ | ⟨hc, _ | ⟨hd, _ | ⟨he, hrest⟩⟩⟩ := h
    · have hrule := size_analyticQuotientRule_le (a := a) (b := b) (c := c) (d := d) x
      simp only [sizeAll, Nat.add_zero] at hsum ⊢
      omega
    · show 1 ≤ _
      omega
  | _ =>
    show 1 ≤ _
    omega

/-- The square of the length pays for the factors that the product rule repeats. -/
theorem size_derivativeRule_le (x : String) (s : Symbol α) (hne : args ≠ [])
    (h : SizesBounded args ds) :
    (derivativeRule x s args ds).size ≤ 3 * (1 + sizeAll args) ^ 2 := by
  rw [show 3 * (1 + sizeAll args) ^ 2 = 3 + 6 * sizeAll args + 3 * sizeAll args ^ 2 by ring]
  obtain _ | ⟨ha, _ | ⟨hb, hrest⟩⟩ := id h
  · exact absurd rfl hne
  · rename_i a d
    have hrule := size_unaryRule_le (a := a) (d := d) x s
    have hpos := one_le_size a
    simp only [sizeAll, Nat.add_zero]
    omega
  · exact size_naryRule_le x s h

/-- A derivative is at most three times as long as the square of the length of the expression. -/
theorem size_derivativeAt_le {x : String} {first : ℕ} {e d : Expr α}
    (h : derivativeAt x first e = .ok d) : d.size ≤ 3 * e.size ^ 2 := by
  refine derivativeAt_keeps (R := fun e d => d.size ≤ 3 * e.size ^ 2) (fun e value => ?_)
    (fun s args ds hne hall => ?_) h
  · have := one_le_size e
    exact Nat.one_le_iff_ne_zero.2 (by positivity)
  · rw [size]
    exact size_derivativeRule_le x s hne hall

end

end ModalBounds.Expr
