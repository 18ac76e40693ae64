import ModalBounds.Interval.Wave
import ModalBounds.Proofs.Scalar.Extended

/-!
# Ranges of periodic functions by their definition

Without rounding, `Wave.range` is the least and the greatest value of a function of period `4` that
is monotone between consecutive integers (`range_isLeast_isGreatest`). Three facts carry this:

* `reduce` moves an interval shorter than a period by whole periods only, to begin in `[0, 4)`
  (`reduce_eq`);
* the loop over the whole numbers inside runs through all of them (`wholeSteps_eq`) and ends by
  itself, not at its limit (`steps_wholeSteps`);
* every point of the interval lies between two sampled ones between which the function is monotone
  (`exists_points_around`).
-/

namespace ModalBounds.Wave

open Set (Icc)
open Extended

section
variable {K : Type} [Field K] [LinearOrder K] [FloorRing K] {ε : K}

/-- `w` has quarters of length `H` and takes the values of `g`, a function of period `4` that is
monotone between consecutive integers. -/
structure Samples (w : Wave (Extended ε)) (H : K) (g : K → K) : Prop where
  pos : 0 < H
  period : w.period = finite (4 * H)
  quarter : w.quarter = finite H
  sample (t : K) : w.sample (finite t) = finite (g t)
  periodic : Function.Periodic g 4
  monotone (k : ℤ) : MonotoneOn g (Icc k (k + 1)) ∨ AntitoneOn g (Icc k (k + 1))

variable [RealFunctions K]

/-! ### Reduction -/

section
variable [IsStrictOrderedRing K]

theorem div_cycle (t : K) : (finite t / cycle : Extended ε) = finite (t / 4) :=
  finite_div t four_ne_zero

theorem rem_cycle {t : K} (ht : 0 ≤ t) :
    Elementary.rem (finite t : Extended ε) cycle = finite (t - 4 * ⌊t / 4⌋) := by
  have hdiv : ¬ t / 4 < 0 := not_lt.2 (div_nonneg ht zero_le_four)
  have hrem : Elementary.rem t 4 = t - 4 * ⌊t / 4⌋ := by simp only [Elementary.rem, if_neg hdiv]
  rw [← hrem]
  exact if_neg four_ne_zero

theorem add_periods_eq {s : K} (hs : s < 0) (t : K) :
    (finite t + (Elementary.trunc (Scalar.magnitude (finite s) / cycle) + 1) * cycle : Extended ε) =
      finite (t + (⌊-s / 4⌋ + 1) * 4) := by
  have hdiv : ¬ -s / 4 < 0 := not_lt.2 (div_nonneg (neg_nonneg.2 hs.le) zero_le_four)
  have htrunc : Elementary.trunc (-s / 4) = (⌊-s / 4⌋ : K) := if_neg hdiv
  rw [magnitude_finite, abs_of_neg hs, div_cycle, ← htrunc]
  rfl

omit [RealFunctions K] in
theorem add_periods_nonneg (s : K) : 0 ≤ s + (⌊-s / 4⌋ + 1) * 4 := by
  have h := Int.lt_floor_add_one (-s / 4)
  linarith

omit [RealFunctions K] in
/-- The remainders of two numbers less than a period apart, the second put back above the first. -/
theorem unwrap_eq {s t : K} (hst : s ≤ t) (hw : t - s < 4) :
    (if t - 4 * ⌊t / 4⌋ < s - 4 * ⌊s / 4⌋ then t - 4 * ⌊t / 4⌋ + 4 else t - 4 * ⌊t / 4⌋) =
      t - 4 * (⌊s / 4⌋ : K) := by
  have hs := Int.floor_le (s / 4)
  have hs' := Int.lt_floor_add_one (s / 4)
  have ht := Int.floor_le (t / 4)
  have ht' := Int.lt_floor_add_one (t / 4)
  have hle : ⌊s / 4⌋ ≤ ⌊t / 4⌋ := Int.floor_le_floor (by linarith)
  have hlt : ⌊t / 4⌋ < ⌊s / 4⌋ + 2 := by
    rw [Int.floor_lt]
    push_cast
    linarith
  obtain heq | heq : ⌊t / 4⌋ = ⌊s / 4⌋ ∨ ⌊t / 4⌋ = ⌊s / 4⌋ + 1 := by omega
  · rw [heq, if_neg (by linarith)]
  · rw [heq, if_pos]
    · push_cast
      ring
    · push_cast
      linarith

theorem rems_eq {s t : K} (hs : 0 ≤ s) (hst : s ≤ t) (hw : t - s < 4) :
    (Elementary.rem (finite s : Extended ε) cycle,
      if Elementary.rem (finite t : Extended ε) cycle < Elementary.rem (finite s) cycle then
        Elementary.rem (finite t : Extended ε) cycle + cycle
      else Elementary.rem (finite t) cycle) =
    (finite (s - 4 * ⌊s / 4⌋), finite (t - 4 * ⌊s / 4⌋)) := by
  rw [rem_cycle hs, rem_cycle (hs.trans hst), ← unwrap_eq hst hw, apply_ite finite]
  rfl

/-- An interval shorter than a period is moved by whole periods, to start in `[0, 4)`. -/
theorem reduce_eq {w : Wave (Extended ε)} {H l u : K} (hH : 0 < H)
    (hq : w.quarter = finite H) (hlu : l ≤ u)
    (hw : u - l < 4 * H) :
    ∃ k : ℤ, w.reduce (finite l) (finite u) = (finite (l / H + k * 4), finite (u / H + k * 4)) ∧
      0 ≤ l / H + k * 4 ∧ l / H + k * 4 < 4 := by
  have hle : l / H ≤ u / H := div_le_div_of_nonneg_right hlu hH.le
  have hwidth : u / H - l / H < 4 := by
    rw [← sub_div, div_lt_iff₀ hH]
    exact hw
  simp only [reduce, hq, finite_div l hH.ne', finite_div u hH.ne']
  -- from here in quarters of the period
  generalize l / H = s at *
  generalize u / H = t at *
  rcases lt_or_ge s 0 with hneg | hnonneg
  -- an interval that begins below zero is first moved above, for the remainder to be positive
  · have hcond : (finite s : Extended ε) < 0 := hneg
    have h := Int.floor_le ((s + (⌊-s / 4⌋ + 1) * 4) / 4)
    have h' := Int.lt_floor_add_one ((s + (⌊-s / 4⌋ + 1) * 4) / 4)
    simp only [if_pos hcond, add_periods_eq hneg]
    rw [rems_eq (add_periods_nonneg s) (by linarith) (by linarith)]
    refine ⟨⌊-s / 4⌋ + 1 - ⌊(s + (⌊-s / 4⌋ + 1) * 4) / 4⌋, ?_, ?_, ?_⟩ <;> push_cast
    · congr 2 <;> ring
    · linarith
    · linarith
  · have hcond : ¬ (finite s : Extended ε) < 0 := not_lt.2 hnonneg
    have h := Int.floor_le (s / 4)
    have h' := Int.lt_floor_add_one (s / 4)
    simp only [if_neg hcond]
    rw [rems_eq hnonneg hle hwidth]
    refine ⟨-⌊s / 4⌋, ?_, ?_, ?_⟩ <;> push_cast
    · congr 2 <;> ring
    · linarith
    · linarith

end

end

/-! ### Sampling -/

section
variable {α : Type} [Elementary α]

/-- The numbers that a loop in steps of one, without a limit, goes through until it ends. -/
inductive Steps (last : α) : α → List α → Prop
  | done {step : α} (h : ¬ step ≤ last) : Steps last step []
  | next {step : α} {rest : List α} (h : step ≤ last) (hrest : Steps last (step + 1) rest) :
    Steps last step (step :: rest)

/-- Short of its limit the loop ends by itself. -/
theorem steps_wholeSteps {limit : ℕ} {step last : α}
    (h : (wholeSteps limit step last).length < limit) :
    Steps last step (wholeSteps limit step last) := by
  induction limit generalizing step with
  | zero => simp at h
  | succ limit ih =>
    rw [wholeSteps] at h ⊢
    split at h
    · rename_i hle
      rw [if_pos hle]
      exact .next hle (ih (by simpa using h))
    · rename_i hle
      rw [if_neg hle]
      exact .done hle

end

section
variable {K : Type} [Field K]

def integers (k m : ℤ) : List K := (List.range (m + 1 - k).toNat).map fun i : ℕ => ((k + i : ℤ) : K)

theorem mem_integers {k m : ℤ} {p : K} : p ∈ integers k m ↔ ∃ j : ℤ, k ≤ j ∧ j ≤ m ∧ p = j := by
  simp only [integers, List.mem_map, List.mem_range]
  constructor
  · rintro ⟨i, hi, rfl⟩
    exact ⟨k + i, by omega, by omega, rfl⟩
  · rintro ⟨j, hk, hm, rfl⟩
    exact ⟨(j - k).toNat, by omega, by congr 1; omega⟩

theorem length_integers (k m : ℤ) : (integers k m : List K).length = (m + 1 - k).toNat := by
  rw [integers, List.length_map, List.length_range]

theorem integers_of_lt {k m : ℤ} (h : m < k) : (integers k m : List K) = [] := by
  rw [integers, Int.toNat_of_nonpos (by omega)]
  rfl

theorem integers_of_le {k m : ℤ} (h : k ≤ m) :
    (integers k m : List K) = (k : K) :: integers (k + 1) m := by
  have hlen : (m + 1 - k).toNat = (m + 1 - (k + 1)).toNat + 1 := by omega
  rw [integers, hlen, List.range_succ_eq_map, List.map_cons, List.map_map, integers]
  congr 1
  · simp
  · refine List.map_congr_left fun i _ => ?_
    rw [Function.comp_apply]
    push_cast
    ring

end

section
variable {K : Type} [Field K] [LinearOrder K] [FloorRing K] {ε : K}

def points (a b : K) : List K := a :: b :: integers ⌈a⌉ ⌊b⌋

theorem mem_points {a b p : K} :
    p ∈ points a b ↔ p = a ∨ p = b ∨ ∃ j : ℤ, a ≤ j ∧ j ≤ b ∧ p = j := by
  simp only [points, List.mem_cons, mem_integers, Int.ceil_le, Int.le_floor]

theorem points_subset {a b p : K} (hab : a ≤ b) (hp : p ∈ points a b) : p ∈ Icc a b := by
  rcases mem_points.1 hp with rfl | rfl | ⟨j, ha, hb, rfl⟩
  · exact ⟨le_rfl, hab⟩
  · exact ⟨hab, le_rfl⟩
  · exact ⟨ha, hb⟩

/-- Every point lies between two sampled ones, and these in one step from an integer to the next. -/
theorem exists_points_around {a b t : K} (ht : t ∈ Icc a b) :
    ∃ p ∈ points a b, ∃ q ∈ points a b,
      p ≤ t ∧ t ≤ q ∧ p ∈ Icc (⌊t⌋ : K) (⌊t⌋ + 1) ∧ q ∈ Icc (⌊t⌋ : K) (⌊t⌋ + 1) := by
  have hfloor : (⌊t⌋ : K) ≤ t := Int.floor_le t
  have hnext : t < ⌊t⌋ + 1 := Int.lt_floor_add_one t
  have hbelow : ∃ p ∈ points a b, p ≤ t ∧ ⌊t⌋ ≤ p := by
    rcases le_total a ⌊t⌋ with h | h
    · exact ⟨⌊t⌋, mem_points.2 (.inr (.inr ⟨_, h, hfloor.trans ht.2, rfl⟩)), hfloor, le_rfl⟩
    · exact ⟨a, mem_points.2 (.inl rfl), ht.1, h⟩
  have habove : ∃ q ∈ points a b, t ≤ q ∧ q ≤ ⌊t⌋ + 1 := by
    rcases le_total b (⌊t⌋ + 1) with h | h
    · exact ⟨b, mem_points.2 (.inr (.inl rfl)), ht.2, h⟩
    · have hcast : ((⌊t⌋ + 1 : ℤ) : K) = ⌊t⌋ + 1 := by push_cast; rfl
      refine ⟨⌊t⌋ + 1, mem_points.2 (.inr (.inr ⟨⌊t⌋ + 1, ?_, ?_, hcast.symm⟩)), hnext.le, le_rfl⟩
      · exact hcast ▸ ht.1.trans hnext.le
      · exact hcast ▸ h
  obtain ⟨p, hp, hpt, hp'⟩ := hbelow
  obtain ⟨q, hq, htq, hq'⟩ := habove
  exact ⟨p, hp, q, hq, hpt, htq, ⟨hp', hpt.trans hnext.le⟩, ⟨hfloor.trans htq, hq'⟩⟩

/-- No value lies outside those at two of the sampled points. -/
theorem exists_values_around {g : K → K}
    (hg : ∀ k : ℤ, MonotoneOn g (Icc k (k + 1)) ∨ AntitoneOn g (Icc k (k + 1))) {a b t : K}
    (ht : t ∈ Icc a b) : (∃ p ∈ points a b, g p ≤ g t) ∧ ∃ q ∈ points a b, g t ≤ g q := by
  obtain ⟨p, hp, q, hq, hpt, htq, hp', hq'⟩ := exists_points_around ht
  have ht' : t ∈ Icc (⌊t⌋ : K) (⌊t⌋ + 1) := ⟨Int.floor_le t, (Int.lt_floor_add_one t).le⟩
  rcases hg ⌊t⌋ with hmono | hanti
  · exact ⟨⟨p, hp, hmono hp' ht' hpt⟩, q, hq, hmono ht' hq' htq⟩
  · exact ⟨⟨q, hq, hanti ht' hq' htq⟩, p, hp, hanti hp' ht' hpt⟩

theorem foldl_min_max {vs : List K} (hvs : vs ≠ []) :
    ∃ a b, (vs.map finite).foldl min (Scalar.infinity : Extended ε) = finite a ∧
      (vs.map finite).foldl max (-Scalar.infinity : Extended ε) = finite b ∧
      IsLeast {v | v ∈ vs} a ∧ IsGreatest {v | v ∈ vs} b := by
  obtain ⟨v, vs, rfl⟩ := List.exists_cons_of_ne_nil hvs
  have hmin (init : K) : (vs.map finite).foldl min (finite init : Extended ε) =
      finite (vs.foldl min init) := by
    induction vs generalizing init with
    | nil => rfl
    | cons v vs ih => exact ih (by simp) _
  have hmax (init : K) : (vs.map finite).foldl max (finite init : Extended ε) =
      finite (vs.foldl max init) := by
    clear hmin
    induction vs generalizing init with
    | nil => rfl
    | cons v vs ih => exact ih (by simp) _
  refine ⟨_, _, hmin v, hmax v, ?_, ?_⟩
  · exact List.min?_eq_some_iff.1 List.min?_cons'
  · exact List.max?_eq_some_iff.1 List.max?_cons'

variable [IsStrictOrderedRing K]

/-- The loop goes through all the integers if its limit allows for them. -/
theorem wholeSteps_eq [RealFunctions K] {limit : ℕ} {k m : ℤ} (h : m - k < limit) :
    wholeSteps limit (finite (k : K)) (finite (m : K) : Extended ε) =
      (integers k m).map finite := by
  induction limit generalizing k with
  | zero =>
    rw [integers_of_lt (by omega)]
    rfl
  | succ limit ih =>
    rcases le_or_gt k m with hkm | hkm
    · have hcond : (finite (k : K) : Extended ε) ≤ finite (m : K) := Int.cast_le.2 hkm
      have hnext : (finite (k : K) + 1 : Extended ε) = finite ((k + 1 : ℤ) : K) := by
        rw [Int.cast_add, Int.cast_one]
        rfl
      rw [wholeSteps, if_pos hcond, hnext, ih (by omega), integers_of_le hkm, List.map_cons]
    · have hcond : ¬ (finite (k : K) : Extended ε) ≤ finite (m : K) := not_le.2 (Int.cast_lt.2 hkm)
      rw [wholeSteps, if_neg hcond, integers_of_lt hkm, List.map_nil]

omit [FloorRing K] in
theorem image_add_periods {g : K → K} (hg : Function.Periodic g 4) (k : ℤ) (a b : K) :
    g '' Icc (a + k * 4) (b + k * 4) = g '' Icc a b := by
  rw [← Set.image_add_const_Icc, Set.image_image]
  exact Set.image_congr fun t _ => hg.int_mul k t

/-! ### The range -/

variable {w : Wave (Extended ε)} {H l u : K} {g : K → K}

/-- The samples between two ends less than a period apart, the first of them in `[0, 4)`; the limit
of the loop is not reached. -/
theorem wholeSteps_of_reduced [RealFunctions K] {a b : K} (ha : 0 ≤ a) (hb : b < 8) :
    (wholeSteps stepLimit (Elementary.ceil (finite a)) (Elementary.floor (finite b)) :
      List (Extended ε)) =
        (integers ⌈a⌉ ⌊b⌋).map finite ∧
      Steps (Elementary.floor (finite b) : Extended ε) (Elementary.ceil (finite a))
        (wholeSteps stepLimit (Elementary.ceil (finite a)) (Elementary.floor (finite b))) := by
  have hceil : 0 ≤ ⌈a⌉ := Int.ceil_nonneg ha
  have hfloor : ⌊b⌋ < 8 := Int.floor_lt.2 (by exact_mod_cast hb)
  have heq : (wholeSteps stepLimit (Elementary.ceil (finite a)) (Elementary.floor (finite b)) :
      List (Extended ε)) =
      (integers ⌈a⌉ ⌊b⌋).map finite := wholeSteps_eq (by rw [stepLimit]; omega)
  refine ⟨heq, steps_wholeSteps ?_⟩
  rw [heq, List.length_map, length_integers, stepLimit]
  omega

omit [IsStrictOrderedRing K] in
/-- The extremes of the sampled values are those of all values. -/
theorem Samples.extremes (h : w.Samples H g) {a b : K} (hab : a ≤ b) :
    ∃ m M, (((points a b).map finite).map w.sample).foldl min Scalar.infinity = finite m ∧
      (((points a b).map finite).map w.sample).foldl max (-Scalar.infinity) = finite M ∧
      IsLeast (g '' Icc a b) m ∧ IsGreatest (g '' Icc a b) M := by
  have hvalues : ((points a b).map finite).map w.sample = ((points a b).map g).map finite := by
    rw [List.map_map, List.map_map]
    exact List.map_congr_left fun p _ => h.sample p
  have hne : (points a b).map g ≠ [] := by simp [points]
  obtain ⟨m, M, hm, hM, hleast, hgreatest⟩ := foldl_min_max (ε := ε) hne
  have hmem {v : K} (hv : v ∈ (points a b).map g) : v ∈ g '' Icc a b := by
    obtain ⟨p, hp, rfl⟩ := List.mem_map.1 hv
    exact ⟨p, points_subset hab hp, rfl⟩
  rw [hvalues]
  refine ⟨m, M, hm, hM, ⟨hmem hleast.1, ?_⟩, hmem hgreatest.1, ?_⟩
  · rintro _ ⟨t, ht, rfl⟩
    obtain ⟨p, hp, hle⟩ := (exists_values_around h.monotone ht).1
    exact (hleast.2 (List.mem_map_of_mem hp)).trans hle
  · rintro _ ⟨t, ht, rfl⟩
    obtain ⟨q, hq, hle⟩ := (exists_values_around h.monotone ht).2
    exact hle.trans (hgreatest.2 (List.mem_map_of_mem hq))

/-- The range of a periodic function over an interval shorter than a period: the loop ends, and the
bounds are the least and the greatest value. -/
theorem range_isLeast_isGreatest [RealFunctions K] (h : w.Samples H g) (hlu : l ≤ u)
    (hw : u - l < 4 * H) :
    Steps (Elementary.floor (w.reduce (finite l) (finite u)).2)
      (Elementary.ceil (w.reduce (finite l) (finite u)).1)
      (wholeSteps stepLimit (Elementary.ceil (w.reduce (finite l) (finite u)).1)
        (Elementary.floor (w.reduce (finite l) (finite u)).2)) ∧
    ∃ a b, w.range (finite l) (finite u) = (finite a, finite b) ∧
      IsLeast (g '' Icc (l / H) (u / H)) a ∧ IsGreatest (g '' Icc (l / H) (u / H)) b := by
  obtain ⟨k, hreduce, hstart, hstart'⟩ := reduce_eq h.pos h.quarter hlu hw
  have hle : l / H ≤ u / H := div_le_div_of_nonneg_right hlu h.pos.le
  have hwidth : u / H - l / H < 4 := by
    rw [← sub_div, div_lt_iff₀ h.pos]
    exact hw
  obtain ⟨heq, hsteps⟩ := wholeSteps_of_reduced (ε := ε) hstart (b := u / H + k * 4) (by linarith)
  have hfinite : (!Scalar.isFinite (finite l : Extended ε) ||
      !Scalar.isFinite (finite u : Extended ε) ||
      decide (w.period ≤ finite u - finite l)) = false := by
    have hperiod : ¬ w.period ≤ finite u - finite l := by
      rw [h.period, finite_sub, finite_le, not_le]
      exact hw
    rw [isFinite_finite, isFinite_finite, decide_eq_false hperiod]
    rfl
  -- the interval is moved by whole periods, so the extremes are those over the given one
  obtain ⟨m, M, hm, hM, hleast, hgreatest⟩ :=
    h.extremes (a := l / H + k * 4) (b := u / H + k * 4) (by linarith)
  rw [image_add_periods h.periodic] at hleast hgreatest
  refine ⟨?_, m, M, ?_, hleast, hgreatest⟩
  · rw [hreduce]
    exact hsteps
  · rw [range, hfinite, hreduce]
    simp only [samplePoints, heq]
    exact Prod.ext hm hM

end

/-! ### A wave of straight lines -/

attribute [local instance] RealFunctions.zero

/-- The distance from `2` modulo `4`. -/
def triangle (t : ℚ) : ℚ := |t - 4 * ⌊t / 4⌋ - 2|

/-- The triangle wave of period `2`. -/
def triangleWave : Wave (Extended (0 : ℚ)) where
  period := finite (4 * (1 / 2))
  quarter := finite (1 / 2)
  sample
    | finite t => finite (triangle t)
    | _ => undefined

theorem triangle_periodic : Function.Periodic triangle 4 := by
  intro t
  have hdiv : (t + 4) / 4 = t / 4 + 1 := by ring
  rw [triangle, triangle, hdiv, Int.floor_add_one]
  congr 1
  push_cast
  ring

theorem triangle_eq {q : ℤ} {t : ℚ} (h : 4 * q ≤ t) (h' : t ≤ 4 * q + 4) :
    triangle t = |t - 4 * q - 2| := by
  rcases h'.eq_or_lt with rfl | hlt
  · have hfloor : ⌊(4 * q + 4 : ℚ) / 4⌋ = q + 1 := by
      rw [Int.floor_eq_iff]
      push_cast
      constructor <;> linarith
    rw [triangle, hfloor]
    push_cast
    ring_nf
    norm_num
  · have hfloor : ⌊t / 4⌋ = q := by
      rw [Int.floor_eq_iff]
      constructor <;> linarith
    rw [triangle, hfloor]

theorem triangle_monotone (k : ℤ) :
    MonotoneOn triangle (Icc k (k + 1)) ∨ AntitoneOn triangle (Icc k (k + 1)) := by
  obtain ⟨q, r, hr, hr', rfl⟩ : ∃ q r : ℤ, 0 ≤ r ∧ r ≤ 3 ∧ k = 4 * q + r :=
    ⟨k / 4, k % 4, by omega, by omega, by omega⟩
  have hrq : (0 : ℚ) ≤ r := by exact_mod_cast hr
  have hrq' : (r : ℚ) ≤ 3 := by exact_mod_cast hr'
  push_cast
  have heq {t : ℚ} (ht : t ∈ Icc (4 * (q : ℚ) + r) (4 * q + r + 1)) : triangle t =
      |t - 4 * q - 2| :=
    triangle_eq (by linarith [ht.1]) (by linarith [ht.2])
  rcases le_or_gt r 1 with h | h
  · have hq : (r : ℚ) ≤ 1 := by exact_mod_cast h
    refine .inr fun s hs t ht hst => ?_
    rw [heq hs, heq ht, abs_of_nonpos (by linarith [ht.2]), abs_of_nonpos (by linarith [hs.2])]
    linarith
  · have hq : (2 : ℚ) ≤ r := by exact_mod_cast h
    refine .inl fun s hs t ht hst => ?_
    rw [heq hs, heq ht, abs_of_nonneg (by linarith [hs.1]), abs_of_nonneg (by linarith [ht.1])]
    linarith

theorem triangleWave_samples : triangleWave.Samples (1 / 2) triangle where
  pos := by norm_num
  period := rfl
  quarter := rfl
  sample _ := rfl
  periodic := triangle_periodic
  monotone := triangle_monotone

/-- An interval below zero. -/
theorem triangleWave_range :
    ∃ a b, triangleWave.range (finite (-1)) (finite (-1 / 4)) = (finite a, finite b) ∧
      IsLeast (triangle '' Icc (-1 / (1 / 2)) (-1 / 4 / (1 / 2))) a ∧
      IsGreatest (triangle '' Icc (-1 / (1 / 2)) (-1 / 4 / (1 / 2))) b :=
  (range_isLeast_isGreatest triangleWave_samples (by norm_num) (by norm_num)).2

end ModalBounds.Wave
