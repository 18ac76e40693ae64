import ModalBounds.Proofs.Interval.Finite
import ModalBounds.Proofs.Interval.Product
import ModalBounds.Proofs.Scalar.Exact

/-!
# Powers of modal intervals by their definition

A power of a modal interval has the least and the greatest power of its values as bounds, in the
order of the bounds of the interval (`IsRange`). A natural power meets this for every interval
(`exists_npow_eq`). A negative power is the reciprocal of a natural one, and meets it where the
interval excludes zero; where zero lies inside, the values of an odd power go to both infinities and
the power is undefined, and those of an even power go to one infinity only, which becomes a bound
(`zpow_bounds`).
-/

namespace ModalBounds.ModalInterval

open Set Extended

/-- The interval of two bounds, exchanged where `x` is improper. -/
def oriented {α β : Type} [Scalar α] (x : ModalInterval α) (lower upper : β) : ModalInterval β :=
  if x.isImproper then ⟨upper, lower⟩ else ⟨lower, upper⟩

section
variable {K β : Type} [Field K] [LinearOrder K] [FloorRing K] {x : ModalInterval K} {l u : β}

theorem oriented_of_le (hx : x.lower ≤ x.upper) : x.oriented l u = ⟨l, u⟩ := by
  rw [oriented, isImproper_eq_false.2 hx]
  rfl

theorem oriented_of_lt (hx : x.upper < x.lower) : x.oriented l u = ⟨u, l⟩ := by
  rw [oriented, isImproper_eq_true.2 hx]
  rfl

theorem values_eq (x : ModalInterval K) : x.values = Icc x.proper.lower x.proper.upper := by
  rcases le_or_gt x.lower x.upper with hx | hx
  · rw [values_of_le hx, proper_of_le hx]
  · rw [values_of_lt hx, proper_of_lt hx, dual_lower, dual_upper]

theorem proper_lower_le (x : ModalInterval K) : x.proper.lower ≤ x.proper.upper := by
  rcases le_or_gt x.lower x.upper with hx | hx
  · rwa [proper_of_le hx]
  · rw [proper_of_lt hx]
    exact hx.le

theorem proper_oriented {l u : K} (hlu : l ≤ u) : (x.oriented l u).proper = ⟨l, u⟩ := by
  unfold oriented
  split
  · rcases hlu.eq_or_lt with rfl | hlt
    · exact proper_of_le le_rfl
    · exact proper_of_lt hlt
  · exact proper_of_le hlu

theorem extend_oriented {ε l u : K} :
    (x.oriented l u).extend = (x.oriented (finite l) (finite u) : ModalInterval (Extended ε)) := by
  unfold oriented
  split <;> rfl

end

section
variable {K : Type} [Field K] [LinearOrder K] [FloorRing K] [IsStrictOrderedRing K]
  {x : ModalInterval K} {l u : K}

/-- The bounds are the least and the greatest value of a function over the values of `x`, in the
order of the bounds of `x`. -/
def IsRange (f : K → K) (x : ModalInterval K) (bounds : ModalInterval (Extended (0 : K))) : Prop :=
  ∃ l u, IsLeast (f '' x.values) l ∧ IsGreatest (f '' x.values) u ∧
    bounds = x.oriented (finite l) (finite u)

/-! ### Natural powers -/

theorem npow_bounds_of_le (hx : x.lower ≤ x.upper) (n : ℕ) :
    IsLeast ((· ^ n) '' Icc x.lower x.upper) (x.npow n).lower ∧
      IsGreatest ((· ^ n) '' Icc x.lower x.upper) (x.npow n).upper := by
  obtain ⟨hl, hu⟩ := npow_bounds_mem hx n
  have hbetween {v : K} (hv : v ∈ Icc x.lower x.upper) : (x.npow n).lower ≤ v ^ n ∧
      v ^ n ≤ (x.npow n).upper := by
    have h := npow_subset_npow (point_subset hv) n
    rwa [npow_point] at h
  refine ⟨⟨hl, ?_⟩, hu, ?_⟩
  · rintro _ ⟨v, hv, rfl⟩
    exact (hbetween hv).1
  · rintro _ ⟨v, hv, rfl⟩
    exact (hbetween hv).2

/-- The bounds of a natural power. -/
theorem exists_npow_eq (x : ModalInterval K) (n : ℕ) :
    ∃ l u, IsLeast ((· ^ n) '' x.values) l ∧ IsGreatest ((· ^ n) '' x.values) u ∧
      x.npow n = x.oriented l u := by
  rcases le_or_gt x.lower x.upper with hx | hx
  · obtain ⟨hl, hu⟩ := npow_bounds_of_le hx n
    rw [values_of_le hx]
    exact ⟨_, _, hl, hu, (oriented_of_le hx).symm⟩
  · obtain ⟨hl, hu⟩ := npow_bounds_of_le (x := x.dual) hx.le n
    rw [values_of_lt hx]
    refine ⟨_, _, hl, hu, ?_⟩
    rw [oriented_of_lt hx, ← dual_npow]
    rfl

/-! ### Reciprocals -/

theorem of_exact (a b : Extended (0 : K)) : of a b = ⟨a, b⟩ := by
  rw [of, Extended.collapse_eq]

omit [IsStrictOrderedRing K] in
theorem recip_of_straddles (hl : x.proper.lower < 0) (hu : 0 < x.proper.upper) :
    (x.extend : ModalInterval (Extended (0 : K))).recip = undefined := by
  have hinside : (decide ((finite x.proper.lower : Extended (0 : K)) < 0) &&
      decide ((0 : Extended (0 : K)) < finite x.proper.upper)) = true := by
    rw [zero_eq, Bool.and_eq_true, decide_eq_true_eq, decide_eq_true_eq]
    exact ⟨hl, hu⟩
  rw [recip, proper_extend]
  exact if_pos (Bool.or_eq_true_iff.2 (.inl hinside))

theorem recip_of_zero {M : K} (hM : 0 < M) :
    (extend ⟨0, M⟩ : ModalInterval (Extended (0 : K))).recip = ⟨finite (1 / M), Scalar.infinity⟩ ∧
      (extend ⟨M, 0⟩ : ModalInterval (Extended (0 : K))).recip =
        ⟨Scalar.infinity, finite (1 / M)⟩ := by
  have hzero (other : Extended (0 : K)) (h : 0 < other) : invBound (finite 0) other =
      Scalar.infinity := by
    rw [invBound, if_pos (by simp [zero_eq]), if_pos h]
  have hinv (other : Extended (0 : K)) : invBound (finite M) other = finite (1 / M) := by
    rw [invBound, if_neg (by simp [zero_eq, hM.ne'])]
    exact finite_div 1 hM.ne'
  have hp : proper (⟨0, M⟩ : ModalInterval K) = ⟨0, M⟩ := proper_of_le hM.le
  have hp' : proper (⟨M, 0⟩ : ModalInterval K) = ⟨0, M⟩ := proper_of_lt hM
  -- neither is zero inside, nor is it the whole interval
  have hin : ¬ ((decide ((finite 0 : Extended (0 : K)) < 0) &&
      decide ((0 : Extended (0 : K)) < finite M)) ||
      (Scalar.toBEq.beq (finite 0 : Extended (0 : K)) 0 && Scalar.toBEq.beq
        (finite M : Extended (0 : K)) 0)) = true := by
    simp [zero_eq, hM.ne']
  constructor
  · rw [recip, proper_extend, hp]
    refine (if_neg hin).trans ?_
    rw [extend_lower, extend_upper, hzero _ hM, hinv, of_exact]
  · rw [recip, proper_extend, hp']
    refine (if_neg hin).trans ?_
    rw [extend_lower, extend_upper, hzero _ hM, hinv, of_exact]

/-! ### Negative powers -/

omit [IsStrictOrderedRing K] in
theorem pos_or_neg_of_mem_values (hx : x.contains 0 = false) :
    (∀ v ∈ x.values, 0 < v) ∨ ∀ v ∈ x.values, v < 0 := by
  rw [contains, Bool.and_eq_false_iff, decide_eq_false_iff_not, decide_eq_false_iff_not,
    not_le, not_le] at hx
  rw [values_eq]
  exact hx.imp (fun hl v hv => hl.trans_le hv.1) fun hu v hv => hv.2.trans_lt hu

theorem pos_or_neg_of_mem_image (hx : x.contains 0 = false) (n : ℕ) :
    (∀ p ∈ (· ^ n) '' x.values, 0 < p) ∨ ∀ p ∈ (· ^ n) '' x.values, p < 0 := by
  rw [forall_mem_image, forall_mem_image]
  rcases pos_or_neg_of_mem_values hx with hpos | hneg
  · exact .inl fun v hv => pow_pos (hpos v hv) n
  · rcases Nat.even_or_odd n with hn | hn
    · exact .inl fun v hv => hn.pow_pos (hneg v hv).ne
    · exact .inr fun v hv => hn.pow_neg (hneg v hv)

omit [FloorRing K] in
theorem antitoneOn_inv {S : Set K} (hS : (∀ p ∈ S, 0 < p) ∨ ∀ p ∈ S, p < 0) :
    AntitoneOn (·⁻¹) S := by
  intro a ha b hb hab
  rcases hS with hpos | hneg
  · exact inv_anti₀ (hpos a ha) hab
  · exact (inv_le_inv_of_neg (hneg b hb) (hneg a ha)).2 hab

theorem isRange_recip_npow (hx : x.contains 0 = false) (n : ℕ) :
    IsRange (fun v => (v ^ n)⁻¹) x (x.extend.npow n).recip := by
  obtain ⟨l, u, hl, hu, heq⟩ := exists_npow_eq x n
  have hsign := pos_or_neg_of_mem_image hx n
  have h0 : (x.oriented l u).contains 0 = false := by
    rw [contains, proper_oriented (hl.2 hu.1), Bool.and_eq_false_iff, decide_eq_false_iff_not,
      decide_eq_false_iff_not, not_le, not_le]
    exact hsign.imp (fun h => h l hl.1) fun h => h u hu.1
  have hrecip : (x.oriented l u).recip = x.oriented u⁻¹ l⁻¹ := by
    rw [recip_eq h0]
    unfold oriented
    split <;> rfl
  have himage : (fun v => (v ^ n)⁻¹) '' x.values = (·⁻¹) '' ((· ^ n) '' x.values) :=
    (image_image ..).symm
  refine ⟨u⁻¹, l⁻¹, ?_, ?_, ?_⟩
  · rw [himage]
    exact (antitoneOn_inv hsign).map_isGreatest hu
  · rw [himage]
    exact (antitoneOn_inv hsign).map_isLeast hl
  · rw [← extend_npow, heq, ← extend_recip h0, hrecip, extend_oriented]

theorem recip_npow_odd (hl : x.proper.lower < 0) (hu : 0 < x.proper.upper) {n : ℕ} (hn : Odd n) :
    (x.extend.npow n : ModalInterval (Extended (0 : K))).recip = undefined := by
  obtain ⟨l, u, hleast, hgreatest, heq⟩ := exists_npow_eq x n
  have hlow : x.proper.lower ∈ x.values := by rw [values_eq]; exact left_mem_Icc.2 x.proper_lower_le
  have hup : x.proper.upper ∈ x.values := by rw [values_eq]; exact right_mem_Icc.2 x.proper_lower_le
  rw [← extend_npow, heq]
  refine recip_of_straddles ?_ ?_ <;> rw [proper_oriented (hleast.2 hgreatest.1)]
  · exact (hleast.2 (mem_image_of_mem _ hlow)).trans_lt (hn.pow_neg hl)
  · exact (pow_pos hu n).trans_le (hgreatest.2 (mem_image_of_mem _ hup))

theorem recip_npow_even (hl : x.proper.lower < 0) (hu : 0 < x.proper.upper) {n : ℕ} (hn : Even n)
    (h0 : n ≠ 0) :
    ∃ M, IsGreatest ((· ^ n) '' x.values) M ∧
      (x.extend.npow n : ModalInterval (Extended (0 : K))).recip =
        x.oriented (finite (1 / M)) Scalar.infinity := by
  obtain ⟨l, M, hleast, hgreatest, heq⟩ := exists_npow_eq x n
  have hzero : (0 : K) ∈ x.values := by rw [values_eq]; exact ⟨hl.le, hu.le⟩
  have hup : x.proper.upper ∈ x.values := by rw [values_eq]; exact right_mem_Icc.2 x.proper_lower_le
  have hM : 0 < M := (pow_pos hu n).trans_le (hgreatest.2 (mem_image_of_mem _ hup))
  have hl0 : l = 0 := by
    obtain ⟨v, -, rfl⟩ := hleast.1
    refine le_antisymm ?_ (hn.pow_nonneg v)
    simpa [h0] using hleast.2 (mem_image_of_mem _ hzero)
  refine ⟨M, hgreatest, ?_⟩
  rw [← extend_npow, heq, hl0]
  unfold oriented
  split
  · exact (recip_of_zero hM).2
  · exact (recip_of_zero hM).1

/-- The bounds of a power with any whole exponent, by the values of the interval. -/
theorem zpow_bounds (x : ModalInterval K) (n : ℤ) :
    (0 ≤ n ∨ x.contains 0 = false → IsRange (· ^ n) x (x.extend.zpow n)) ∧
    (n < 0 → x.proper.lower < 0 → 0 < x.proper.upper →
      (Odd n → (x.extend.zpow n : ModalInterval (Extended (0 : K))) = undefined) ∧
      (Even n → ∃ M, IsGreatest ((· ^ n.natAbs) '' x.values) M ∧
        (x.extend.zpow n : ModalInterval (Extended (0 : K))) =
          x.oriented (finite (1 / M)) Scalar.infinity)) := by
  constructor
  · intro h
    rcases lt_or_ge n 0 with hn | hn
    -- a negative power is the inverse of the power with its exponent negated
    · have hpow (v : K) : v ^ n = (v ^ n.natAbs)⁻¹ := by
        rw [← zpow_natCast, ← zpow_neg, Int.ofNat_natAbs_of_nonpos hn.le, neg_neg]
      rw [zpow, if_pos hn]
      simp only [hpow]
      exact isRange_recip_npow (h.resolve_left hn.not_ge) n.natAbs
    · obtain ⟨m, rfl⟩ := Int.eq_ofNat_of_zero_le hn
      obtain ⟨l, u, hl, hu, heq⟩ := exists_npow_eq x m
      rw [zpow, if_neg hn.not_gt]
      simp only [zpow_natCast]
      refine ⟨l, u, hl, hu, ?_⟩
      rw [Int.natAbs_natCast, ← extend_npow, heq, extend_oriented]
  · intro hn hl hu
    rw [zpow, if_pos hn]
    refine ⟨fun hodd => recip_npow_odd hl hu (Int.natAbs_odd.2 hodd), fun heven => ?_⟩
    exact recip_npow_even hl hu (Int.natAbs_even.2 heven) (Int.natAbs_ne_zero.2 hn.ne)

/-- The inverse square of an improper interval around zero. -/
theorem zpow_bounds_aroundZero :
    ∃ M, IsGreatest ((· ^ 2) '' values (⟨2, -1⟩ : ModalInterval ℚ)) M ∧
      (extend ⟨2, -1⟩ : ModalInterval (Extended (0 : ℚ))).zpow (-2) =
        ⟨Scalar.infinity, finite (1 / M)⟩ := by
  have hp : proper (⟨2, -1⟩ : ModalInterval ℚ) = ⟨-1, 2⟩ := proper_of_lt (by norm_num)
  have h := (zpow_bounds (⟨2, -1⟩ : ModalInterval ℚ) (-2)).2
    (by norm_num) (by rw [hp]; norm_num) (by rw [hp]; norm_num)
  obtain ⟨M, hM, heq⟩ := h.2 (by decide)
  exact ⟨M, hM, by rw [heq, oriented_of_lt (by norm_num)]⟩

end

end ModalBounds.ModalInterval
