import ModalBounds.Constraint.Basic
import ModalBounds.Proofs.Scalar.Units

/-!
# The violation of a constraint

The violation of a constraint by a bound is a number that is not negative, zero where the target
contains the bound, and it grows with the bound (`violation_characterization`). It is the sum of the
distances by which the bound sticks out of the target on its two sides, each of which is none where
the sides are the same infinity. A target with an undefined side contains nothing, but no bound
sticks out of that side: there the violation may be zero all the same (`violation_undefinedTarget`).
-/

namespace ModalBounds.ShapeConstraint

open Double

/-! ### One side -/

/-- How far a number is above another, zero if it is not. -/
def protrusion (a b : Float) : Float := if b < a then a - b else 0

/-- How far a number is above another, with no distance between equal infinities. -/
def overshoot (a b : Float) : Float := if a == b && !a.isFinite then 0 else greatest 0 (a - b)

/-- The distance in units, before it is rounded. -/
def gap (a b : Float) : ℤ := if b < a then units a - units b else 0

section
variable {a b a' b' : Float} {n m : ℤ}

theorem gap_eq (ha : HasUnits a n) (hb : HasUnits b m) : gap a b = max 0 (n - m) := by
  have hlt := hb.lt_iff ha
  rw [gap, ha.units_eq, hb.units_eq]
  split <;> rename_i h <;> rw [hlt] at h <;> omega

theorem hasUnits_of_lt (h : b < a) :
    HasUnits a (units a) ∧ HasUnits b (units b) ∧ units b < units a := by
  obtain ⟨hb, ha⟩ := defined_of_lt h
  exact ⟨hasUnits_units ha, hasUnits_units hb, ((hasUnits_units hb).lt_iff (hasUnits_units ha)).1 h⟩

theorem gap_pos_iff : 0 < gap a b ↔ b < a := by
  unfold gap
  split
  · rename_i h
    have := (hasUnits_of_lt h).2.2
    exact iff_of_true (by omega) h
  · rename_i h
    exact iff_of_false (lt_irrefl 0) h

theorem gap_nonneg (a b : Float) : 0 ≤ gap a b := by
  by_cases h : b < a
  · exact (gap_pos_iff.2 h).le
  · exact (if_neg h).ge

theorem gap_mono (h : b < a → a ≤ a' ∧ b' ≤ b) : gap a b ≤ gap a' b' := by
  by_cases hlt : b < a
  · obtain ⟨ha, hb, -⟩ := hasUnits_of_lt hlt
    have ha' := hasUnits_units (defined_of_le (h hlt).1).2
    have hb' := hasUnits_units (defined_of_le (h hlt).2).1
    have hle := (ha.le_iff ha').1 (h hlt).1
    have hle' := (hb'.le_iff hb).1 (h hlt).2
    rw [gap_eq ha hb, gap_eq ha' hb']
    omega
  · rw [gap, if_neg hlt]
    exact gap_nonneg ..

theorem protrusion_hasUnits (a b : Float) : HasUnits (protrusion a b) (rounded (gap a b)) := by
  unfold protrusion gap
  split
  · rename_i h
    obtain ⟨ha, hb, hlt⟩ := hasUnits_of_lt h
    exact ha.sub hb (.inr (by omega))
  · rw [rounded_zero]
    exact hasUnits_zero

theorem overshoot_hasUnits (ha : HasUnits a n) (hb : HasUnits b m) :
    HasUnits (overshoot a b) (rounded (gap a b)) := by
  have hbeq := ha.beq_iff hb
  rw [gap_eq ha hb]
  unfold overshoot
  split
  · rename_i h
    rw [Bool.and_eq_true, hbeq] at h
    rw [h.1, sub_self, max_self, rounded_zero]
    exact hasUnits_zero
  · rename_i h
    -- the difference is defined, since equal infinities are excluded
    have hsub : a.isFinite = true ∨ n - m ≠ 0 := by
      by_contra hnot
      simp only [not_or, Bool.not_eq_true, not_not] at hnot
      rw [Bool.and_eq_true, hbeq, hnot.1] at h
      exact h ⟨by omega, rfl⟩
    rw [rounded_mono.map_max, rounded_zero]
    exact (ha.sub hb hsub).greatest_zero

end

/-! ### Both sides -/

section
variable {c : ShapeConstraint Float} {t b b' : Interval Float}

theorem hasUnits_of_isUndefined (h : b.isUndefined = false) :
    HasUnits b.lower (units b.lower) ∧ HasUnits b.upper (units b.upper) := by
  obtain ⟨hlower, hupper⟩ := Bool.or_eq_false_iff.1 h
  exact ⟨hasUnits_units hlower, hasUnits_units hupper⟩

theorem contains_iff : t.contains b = true ↔ t.lower ≤ b.lower ∧ b.upper ≤ t.upper := by
  rw [Interval.contains, Bool.and_eq_true, decide_eq_true_iff, decide_eq_true_iff]

theorem defined_of_contains (h : t.contains b = true) :
    t.isUndefined = false ∧ b.isUndefined = false := by
  obtain ⟨hlower, hupper⟩ := contains_iff.1 h
  obtain ⟨htl, hbl⟩ := defined_of_le hlower
  obtain ⟨hbu, htu⟩ := defined_of_le hupper
  exact ⟨Bool.or_eq_false_iff.2 ⟨htl, htu⟩, Bool.or_eq_false_iff.2 ⟨hbl, hbu⟩⟩

theorem contains_eq_false (h : t.isUndefined = true ∨ b.isUndefined = true) :
    t.contains b = false := by
  by_contra hcontains
  obtain ⟨ht, hb⟩ := defined_of_contains (Bool.not_eq_false _ ▸ hcontains)
  simp [ht, hb] at h

/-- The distance by which a bound sticks out of a target in units, each side rounded. -/
def distance (t b : Interval Float) :
    ℤ := rounded (gap t.lower b.lower) + rounded (gap b.upper t.upper)

theorem distance_nonneg (t b : Interval Float) : 0 ≤ distance t b :=
  Int.add_nonneg (rounded_nonneg (gap_nonneg ..)) (rounded_nonneg (gap_nonneg ..))

theorem distance_pos_iff : 0 < distance t b ↔ b.lower < t.lower ∨ t.upper < b.upper := by
  have hpos {x y : Float} : 0 < rounded (gap x y) ↔ y < x := by
    rw [rounded_pos_iff, gap_pos_iff]
  have hbelow := rounded_nonneg (gap_nonneg t.lower b.lower)
  have habove := rounded_nonneg (gap_nonneg b.upper t.upper)
  rw [← hpos, ← hpos, distance]
  omega

theorem distance_eq_zero_iff (ht : t.isUndefined = false) (hb : b.isUndefined = false) :
    distance t b = 0 ↔ t.contains b = true := by
  obtain ⟨htl, htu⟩ := hasUnits_of_isUndefined ht
  obtain ⟨hbl, hbu⟩ := hasUnits_of_isUndefined hb
  have hpos := distance_pos_iff (t := t) (b := b)
  have hnonneg := distance_nonneg t b
  rw [hbl.lt_iff htl, htu.lt_iff hbu] at hpos
  rw [contains_iff, htl.le_iff hbl, hbu.le_iff htu]
  omega

theorem distance_mono (h : b.isSubset b' = true) : distance t b ≤ distance t b' := by
  obtain ⟨hlower, hupper⟩ := contains_iff.1 h
  refine add_le_add (rounded_mono (gap_mono fun hlt => ?_)) (rounded_mono (gap_mono fun hlt => ?_))
  · have ht := (hasUnits_of_lt hlt).1
    exact ⟨(ht.le_iff ht).2 le_rfl, hlower⟩
  · have ht := (hasUnits_of_lt hlt).2.1
    exact ⟨hupper, (ht.le_iff ht).2 le_rfl⟩

/-! ### Violations -/

/-- A defined bound violates a constraint by its distance from the target, rounded. -/
theorem violation_hasUnits (c : ShapeConstraint Float) (h : b.isUndefined = false) :
    HasUnits (c.violation b) (rounded (distance c.target b)) := by
  have hbelow := protrusion_hasUnits c.target.lower b.lower
  have habove := protrusion_hasUnits b.upper c.target.upper
  rw [violation, if_neg (by simpa using h)]
  split
  · rename_i hcontains
    rw [(distance_eq_zero_iff (defined_of_contains hcontains).1 h).2 hcontains, rounded_zero]
    exact hasUnits_zero
  · show HasUnits (if c.target.upper < b.upper
        then protrusion c.target.lower b.lower + (b.upper - c.target.upper)
      else protrusion c.target.lower b.lower) _
    rw [distance]
    by_cases hupper : c.target.upper < b.upper
    · rw [protrusion.eq_def b.upper, if_pos hupper] at habove
      rw [if_pos hupper]
      exact hbelow.add_of_nonneg habove (rounded_nonneg (gap_nonneg ..))
        (rounded_nonneg (gap_nonneg ..))
    · have hgap : gap b.upper c.target.upper = 0 := if_neg hupper
      rw [if_neg hupper, hgap, rounded_zero, add_zero, hbelow.rounded_eq]
      exact hbelow

theorem violation_undefined (c : ShapeConstraint Float) (h : b.isUndefined = true) :
    c.violation b = Scalar.infinity := if_pos h

theorem violation_eq_zero_iff (h : b.isUndefined = false) :
    (c.violation b == 0) = true ↔ distance c.target b = 0 := by
  have hnonneg := distance_nonneg c.target b
  have hpos := rounded_pos_iff (z := distance c.target b)
  have hrounded := rounded_nonneg hnonneg
  rw [(violation_hasUnits c h).beq_iff hasUnits_zero]
  omega

theorem violation_mono (h : b.isSubset b' = true) : c.violation b ≤ c.violation b' := by
  obtain ⟨hb', hb⟩ := defined_of_contains h
  exact ((violation_hasUnits c hb).le_iff (violation_hasUnits c hb')).2
    (rounded_mono (distance_mono h))

theorem violation_eq_sum (ht : c.target.isUndefined = false) (hb : b.isUndefined = false) :
    (c.violation b == overshoot c.target.lower b.lower + overshoot b.upper c.target.upper) =
      true := by
  obtain ⟨htl, htu⟩ := hasUnits_of_isUndefined ht
  obtain ⟨hbl, hbu⟩ := hasUnits_of_isUndefined hb
  have hsum := (overshoot_hasUnits htl hbl).add_of_nonneg
    (overshoot_hasUnits hbu htu) (rounded_nonneg (gap_nonneg ..))
    (rounded_nonneg (gap_nonneg ..))
  exact ((violation_hasUnits c hb).beq_iff hsum).2 rfl

theorem violation_nonneg (c : ShapeConstraint Float) (b : Interval Float) :
    (c.violation b).isNaN = false ∧ 0 ≤ c.violation b := by
  cases hb : b.isUndefined with
  | true =>
    rw [violation_undefined c hb]
    decide
  | false =>
    have h := violation_hasUnits c hb
    exact ⟨h.defined, (hasUnits_zero.le_iff h).2 (rounded_nonneg (distance_nonneg ..))⟩

/-- A zero tells containment, except where only an undefined side of the target excludes the
bound. -/
theorem violation_tells_contains (c : ShapeConstraint Float) (b : Interval Float) :
    (c.violation b == 0) = c.target.contains b ↔
      c.target.isUndefined = false ∨ b.isUndefined = true ∨ b.lower < c.target.lower ∨
      c.target.upper < b.upper := by
  cases hb : b.isUndefined with
  | true =>
    rw [violation_undefined c hb, contains_eq_false (.inr hb)]
    exact iff_of_true rfl (.inr (.inl rfl))
  | false =>
    have hzero := violation_eq_zero_iff (c := c) hb
    cases ht : c.target.isUndefined with
    | true =>
      have hnonneg := distance_nonneg c.target b
      rw [contains_eq_false (.inl ht), ← distance_pos_iff, ← Bool.not_eq_true, hzero]
      simp
      omega
    | false =>
      rw [Bool.eq_iff_iff, hzero, distance_eq_zero_iff ht hb]
      simp

/-- A violation is a number that is not negative, and zero exactly where the target contains the
bound, as long as the target is defined, the bound is not, or it sticks out of a defined side. Where
both are defined, it is the sum of the distances on the two sides. It does not decrease when the
bound is widened. -/
theorem violation_characterization (c : ShapeConstraint Float) (b : Interval Float) :
    ((c.violation b).isNaN = false ∧ 0 ≤ c.violation b) ∧
      ((c.violation b == 0) = c.target.contains b ↔
        c.target.isUndefined = false ∨ b.isUndefined = true ∨
        b.lower < c.target.lower ∨ c.target.upper < b.upper) ∧
      (c.target.isUndefined = false → b.isUndefined = false →
        (c.violation b == overshoot c.target.lower b.lower + overshoot b.upper c.target.upper) =
          true) ∧
      ∀ b' : Interval Float, b.isSubset b' = true → c.violation b ≤ c.violation b' :=
  ⟨violation_nonneg c b, violation_tells_contains c b, violation_eq_sum, fun _ => violation_mono⟩

/-- Bounds of a target without an upper limit: one with the same infinity, one within it. -/
theorem violation_characterization_unbounded :
    ((onModel (⟨0, 1 / 0⟩ : Interval Float)).violation ⟨-3, 1 / 0⟩ ==
        overshoot 0 (-3) + overshoot (1 / 0) (1 / 0)) = true ∧
      (onModel (⟨0, 1 / 0⟩ : Interval Float)).violation ⟨-1, 5⟩ ≤
        (onModel ⟨0, 1 / 0⟩).violation ⟨-3, 1 / 0⟩ := by
  have htarget : (⟨0, 1 / 0⟩ : Interval Float).isUndefined = false := by decide
  have hbound : (⟨-3, 1 / 0⟩ : Interval Float).isUndefined = false := by decide
  have hsubset : (⟨-1, 5⟩ : Interval Float).isSubset ⟨-3, 1 / 0⟩ = true := by decide
  have h := violation_characterization (onModel (⟨0, 1 / 0⟩ : Interval Float))
  exact ⟨(h _).2.2.1 htarget hbound, (h _).2.2.2 _ hsubset⟩

/-- A target with an undefined lower bound contains nothing, but a bound below its upper one does
not violate it. -/
theorem violation_undefinedTarget : ∃ t b : Interval Float, Interval.of (0 / 0) 1 = .ok t ∧
    Interval.of 0 0.5 = .ok b ∧ ((onModel t).violation b == 0) = true ∧ t.contains b = false :=
  ⟨⟨0 / 0, 1⟩, ⟨0, 0.5⟩, rfl, rfl, rfl, rfl⟩

end

end ModalBounds.ShapeConstraint
