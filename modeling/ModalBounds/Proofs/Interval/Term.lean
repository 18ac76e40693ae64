import Mathlib
import ModalBounds.Proofs.Interval.Kaucher

/-!
# Polynomial terms over modal intervals

A `Term` is a polynomial with one operand or two at a node. Its range is isotone and commutes with
`dual`. Over a box of proper intervals it encloses the values, and its bounds are values there if no
variable occurs twice (`bounds_mem_image`). Exchanging the bounds of some variables lies between
fixing them at any point we like and fixing the others there, which compares each bound of the range
with values (`exists_between_exchange`, `exists_beyond_exchange`).
-/

namespace ModalBounds

open Set ModalInterval

/-- A polynomial over the reals with a weight at each variable. -/
inductive Term where
  | var (name : String) (weight : ℝ)
  | const (value : ℝ)
  | neg (t : Term)
  | add (s t : Term)
  | sub (s t : Term)
  | mul (s t : Term)
  | pow (t : Term) (n : ℕ)

/-- The points whose coordinates lie in proper intervals. -/
def box (X : String → ModalInterval ℝ) :
    Set (String → ℝ) := univ.pi fun v => Icc (X v).lower (X v).upper

theorem mem_box {X : String → ModalInterval ℝ} {ρ : String → ℝ} :
    ρ ∈ box X ↔ ∀ v, ρ v ∈ Icc (X v).lower (X v).upper := mem_univ_pi

namespace Term

def names : Term → List String
  | var name _ => [name]
  | const _ => []
  | neg t => t.names
  | add s t => s.names ++ t.names
  | sub s t => s.names ++ t.names
  | mul s t => s.names ++ t.names
  | pow t _ => t.names

noncomputable def value : Term → (String → ℝ) → ℝ
  | var name weight, ρ => ρ name * weight
  | const c, _ => c
  | neg t, ρ => -t.value ρ
  | add s t, ρ => s.value ρ + t.value ρ
  | sub s t, ρ => s.value ρ - t.value ρ
  | mul s t, ρ => s.value ρ * t.value ρ
  | pow t n, ρ => t.value ρ ^ n

/-- The interval over some ranges, by interval arithmetic at each node. -/
noncomputable def range : Term → (String → ModalInterval ℝ) → ModalInterval ℝ
  | var name weight, X => X name * ⟨weight, weight⟩
  | const c, _ => ⟨c, c⟩
  | neg t, X => -t.range X
  | add s t, X => s.range X + t.range X
  | sub s t, X => s.range X - t.range X
  | mul s t, X => s.range X * t.range X
  | pow t n, X => (t.range X).npow n

variable {X Y : String → ModalInterval ℝ} {ρ σ : String → ℝ}

theorem value_congr (t : Term) (h : ∀ v ∈ t.names, ρ v = σ v) : t.value ρ = t.value σ := by
  induction t with
  | var name weight => rw [value, value, h name (by simp [names])]
  | const c => rfl
  | neg t ih | pow t n ih => rw [value, value, ih h]
  | add s t hs ht | sub s t hs ht | mul s t hs ht =>
    rw [value, value, hs fun v hv => h v (List.mem_append_left _ hv),
      ht fun v hv => h v (List.mem_append_right _ hv)]

theorem range_congr (t : Term) (h : ∀ v ∈ t.names, X v = Y v) : t.range X = t.range Y := by
  induction t with
  | var name weight => rw [range, range, h name (by simp [names])]
  | const c => rfl
  | neg t ih | pow t n ih => rw [range, range, ih h]
  | add s t hs ht | sub s t hs ht | mul s t hs ht =>
    rw [range, range, hs fun v hv => h v (List.mem_append_left _ hv),
      ht fun v hv => h v (List.mem_append_right _ hv)]

theorem range_subset_range (t : Term) (h : ∀ v ∈ t.names, X v ⊆ Y v) : t.range X ⊆ t.range Y := by
  have hleft {s t : Term} (h : ∀ v ∈ s.names ++ t.names, X v ⊆ Y v) (v : String)
      (hv : v ∈ s.names) : X v ⊆ Y v :=
    h v (List.mem_append_left _ hv)
  have hright {s t : Term} (h : ∀ v ∈ s.names ++ t.names, X v ⊆ Y v) (v : String)
      (hv : v ∈ t.names) : X v ⊆ Y v :=
    h v (List.mem_append_right _ hv)
  induction t with
  | var name weight => exact mul_subset_mul (h name (by simp [names])) (Subset.refl _)
  | const c => exact Subset.refl _
  | neg t ih => exact neg_subset_neg (ih h)
  | add s t hs ht => exact add_subset_add (hs (hleft h)) (ht (hright h))
  | sub s t hs ht => exact sub_subset_sub (hs (hleft h)) (ht (hright h))
  | mul s t hs ht => exact mul_subset_mul (hs (hleft h)) (ht (hright h))
  | pow t n ih => exact npow_subset_npow (ih h) n

theorem range_dual (t : Term) (X : String → ModalInterval ℝ) :
    (t.range fun v => (X v).dual) = (t.range X).dual := by
  induction t with
  | var name weight => exact (dual_mul (X name) ⟨weight, weight⟩).symm
  | const c => rfl
  | neg t ih => rw [range, range, ih, dual_neg]
  | add s t hs ht => rw [range, range, hs, ht, dual_add]
  | sub s t hs ht => rw [range, range, hs, ht, dual_sub]
  | mul s t hs ht => rw [range, range, hs, ht, dual_mul]
  | pow t n ih => rw [range, range, ih, dual_npow]

/-- Over ranges that lie between given bounds the range lies between those over the given ones. -/
theorem range_within (t : Term) (h : ∀ v ∈ t.names, (X v).Within (Y v)) :
    (t.range X).Within (t.range Y) :=
  ⟨t.range_subset_range fun v hv => (h v hv).1,
    range_dual t X ▸ t.range_subset_range fun v hv => (h v hv).2⟩

theorem range_point (t : Term) (ρ : String → ℝ) :
    (t.range fun v => ⟨ρ v, ρ v⟩) = ⟨t.value ρ, t.value ρ⟩ := by
  induction t with
  | var name weight => exact mul_point _ _
  | const c => rfl
  | neg t ih => rw [range, ih, neg_eq, value]
  | add s t hs ht => rw [range, hs, ht, add_eq, value]
  | sub s t hs ht => rw [range, hs, ht, sub_eq, value]
  | mul s t hs ht => rw [range, hs, ht, mul_point, value]
  | pow t n ih => rw [range, ih, npow_point, value]

theorem value_mem_range (t : Term) (h : ρ ∈ box X) :
    t.value ρ ∈ Icc (t.range X).lower (t.range X).upper := by
  have hsub := t.range_subset_range (X := fun v => ⟨ρ v, ρ v⟩) fun v _ => h v (mem_univ v)
  rwa [range_point] at hsub

theorem continuous_value (t : Term) : Continuous t.value := by
  induction t with
  | var name weight => exact (continuous_apply (A := fun _ => ℝ) name).mul_const weight
  | const c => exact continuous_const
  | neg t ih => exact ih.neg
  | add s t hs ht => exact hs.add ht
  | sub s t hs ht => exact hs.sub ht
  | mul s t hs ht => exact hs.mul ht
  | pow t n ih => exact ih.pow n

/-! ### Every value of the range is taken -/

theorem isPreconnected_box (X : String → ModalInterval ℝ) : IsPreconnected (box X) :=
  isPreconnected_univ_pi fun _ => isPreconnected_Icc

theorem Icc_subset_image (t : Term) {a b : ℝ} (ha : a ∈ t.value '' box X)
    (hb : b ∈ t.value '' box X) : Icc a b ⊆ t.value '' box X :=
  ((isPreconnected_box X).image _ t.continuous_value.continuousOn).Icc_subset ha hb

/-- Values of two terms without a common variable are taken at a common point. -/
theorem exists_common_point {s t : Term} {a b : ℝ} (hd : s.names.Disjoint t.names)
    (ha : a ∈ s.value '' box X) (hb : b ∈ t.value '' box X) :
    ∃ ρ ∈ box X, s.value ρ = a ∧ t.value ρ = b := by
  obtain ⟨ρ, hρ, rfl⟩ := ha
  obtain ⟨σ, hσ, rfl⟩ := hb
  refine ⟨fun v => if v ∈ s.names then ρ v else σ v, fun v hv => ?_, ?_, ?_⟩
  · dsimp only
    split_ifs
    · exact hρ v hv
    · exact hσ v hv
  · exact s.value_congr fun v hv => if_pos hv
  · exact t.value_congr fun v hv => if_neg fun hs => hd hs hv

theorem range_proper (t : Term) (hX : ∀ v, (X v).lower ≤ (X v).upper) :
    (t.range X).lower ≤ (t.range X).upper := by
  have h : t.value (fun v => (X v).lower) ∈ Icc (t.range X).lower (t.range X).upper :=
    t.value_mem_range fun v _ => ⟨le_rfl, hX v⟩
  exact h.1.trans h.2

theorem mem_image_of_mem_image2 {s t : Term} (u : Term) {f : ℝ → ℝ → ℝ}
    (hd : s.names.Disjoint t.names)
    (hs : Icc (s.range X).lower (s.range X).upper ⊆ s.value '' box X)
    (ht : Icc (t.range X).lower (t.range X).upper ⊆ t.value '' box X)
    (hu : ∀ ρ, u.value ρ = f (s.value ρ) (t.value ρ)) :
    ∀ c ∈ image2 f (Icc (s.range X).lower (s.range X).upper)
      (Icc (t.range X).lower (t.range X).upper),
      c ∈ u.value '' box X := by
  rintro _ ⟨a, ha, b, hb, rfl⟩
  obtain ⟨ρ, hρ, rfl, rfl⟩ := exists_common_point hd (hs ha) (ht hb)
  exact ⟨ρ, hρ, hu ρ⟩

/-- Over proper intervals, and if no variable occurs twice, both bounds are values. -/
theorem bounds_mem_image (t : Term) (hX : ∀ v, (X v).lower ≤ (X v).upper) (hn : t.names.Nodup) :
    (t.range X).lower ∈ t.value '' box X ∧ (t.range X).upper ∈ t.value '' box X := by
  have hl (s : Term) := left_mem_Icc.2 (s.range_proper hX)
  have hu (s : Term) := right_mem_Icc.2 (s.range_proper hX)
  have hpair (s : Term) : {(s.range X).lower, (s.range X).upper} ⊆
      Icc (s.range X).lower (s.range X).upper :=
    insert_subset (hl s) (singleton_subset_iff.2 (hu s))
  -- no two operands share a variable, so points of their boxes come from one point
  induction t with
  | var name weight =>
    have hcorner : (fun v => (X v).lower) ∈ box X := fun v _ => ⟨le_rfl, hX v⟩
    have hmem {a b c : ℝ} (ha : a ∈ ({(X name).lower, (X name).upper} : Set ℝ)) (hb : b = weight)
        (hc : a * b = c) : c ∈ (var name weight).value '' box X := by
      refine ⟨Function.update (fun v => (X v).lower) name a, fun v hv => ?_, ?_⟩
      · rcases eq_or_ne v name with rfl | hne
        · rw [Function.update_self]
          exact insert_subset (left_mem_Icc.2 (hX v))
            (singleton_subset_iff.2 (right_mem_Icc.2 (hX v))) ha
        · rw [Function.update_of_ne hne]; exact hcorner v hv
      · rw [value, Function.update_self, ← hb, hc]
    obtain ⟨⟨a, ha, b, hb, h⟩, a', ha', b', hb', h'⟩ :=
      mul_bounds_mem (y := (⟨weight, weight⟩ : ModalInterval ℝ)) (hX name) le_rfl
    exact ⟨hmem ha (by simpa using hb) h, hmem ha' (by simpa using hb') h'⟩
  | const c =>
    have hc : c ∈ (const c).value '' box X := ⟨fun v => (X v).lower, fun v _ => ⟨le_rfl, hX v⟩, rfl⟩
    exact ⟨hc, hc⟩
  | neg t ih =>
    obtain ⟨⟨ρ, hρ, hlower⟩, σ, hσ, hupper⟩ := ih hn
    rw [range, neg_eq, ← hlower, ← hupper]
    exact ⟨⟨σ, hσ, rfl⟩, ρ, hρ, rfl⟩
  | pow t n ih =>
    have ht := t.Icc_subset_image (ih hn).1 (ih hn).2
    obtain ⟨⟨a, ha, hlower⟩, b, hb, hupper⟩ := npow_bounds_mem (t.range_proper hX) n
    obtain ⟨ρ, hρ, rfl⟩ := ht ha
    obtain ⟨σ, hσ, rfl⟩ := ht hb
    exact ⟨⟨ρ, hρ, hlower⟩, σ, hσ, hupper⟩
  | add s t hs ht =>
    obtain ⟨hns, hnt, hd⟩ := List.nodup_append'.1 hn
    have hmem := mem_image_of_mem_image2 (add s t) hd (s.Icc_subset_image (hs hns).1 (hs hns).2)
      (t.Icc_subset_image (ht hnt).1 (ht hnt).2) fun _ => rfl
    rw [range, add_eq]
    exact ⟨hmem _ ⟨_, hl s, _, hl t, rfl⟩, hmem _ ⟨_, hu s, _, hu t, rfl⟩⟩
  | sub s t hs ht =>
    obtain ⟨hns, hnt, hd⟩ := List.nodup_append'.1 hn
    have hmem := mem_image_of_mem_image2 (sub s t) hd (s.Icc_subset_image (hs hns).1 (hs hns).2)
      (t.Icc_subset_image (ht hnt).1 (ht hnt).2) fun _ => rfl
    rw [range, sub_eq]
    exact ⟨hmem _ ⟨_, hl s, _, hu t, rfl⟩, hmem _ ⟨_, hu s, _, hl t, rfl⟩⟩
  | mul s t hs ht =>
    obtain ⟨hns, hnt, hd⟩ := List.nodup_append'.1 hn
    have hmem := mem_image_of_mem_image2 (mul s t) hd (s.Icc_subset_image (hs hns).1 (hs hns).2)
      (t.Icc_subset_image (ht hnt).1 (ht hnt).2) fun _ => rfl
    have hprod := mul_bounds_mem (s.range_proper hX) (t.range_proper hX)
    exact ⟨hmem _ (image2_subset (hpair s) (hpair t) hprod.1),
      hmem _ (image2_subset (hpair s) (hpair t) hprod.2)⟩

/-! ### Exchanged bounds -/

open Classical in
/-- The ranges with the bounds of the variables in `N` exchanged. -/
noncomputable def exchange (N : Set String) (X : String → ModalInterval ℝ) (v : String) :
    ModalInterval ℝ :=
  if v ∈ N then (X v).dual else X v

open Classical in
/-- The ranges with the variables in `N` fixed at a point. -/
noncomputable def fixAt (N : Set String) (c : String → ℝ) (X : String → ModalInterval ℝ)
    (v : String) : ModalInterval ℝ :=
  if v ∈ N then ⟨c v, c v⟩ else X v

section
variable {N : Set String} {c : String → ℝ}

theorem fixAt_proper (hX : ∀ v, (X v).lower ≤ (X v).upper) (v : String) :
    (fixAt N c X v).lower ≤ (fixAt N c X v).upper := by
  unfold fixAt; split_ifs
  · exact le_rfl
  · exact hX v

theorem mem_box_fixAt (hc : c ∈ box X) (h : ρ ∈ box (fixAt N c X)) :
    ρ ∈ box X ∧ ∀ v ∈ N, ρ v = c v := by
  have hfixed (v : String) (hN : v ∈ N) : ρ v = c v := by
    have hv := mem_box.1 h v
    rw [fixAt, if_pos hN] at hv
    exact le_antisymm hv.2 hv.1
  refine ⟨mem_box.2 fun v => ?_, hfixed⟩
  by_cases hN : v ∈ N
  · rw [hfixed v hN]
    exact mem_box.1 hc v
  · have hv := mem_box.1 h v
    rwa [fixAt, if_neg hN] at hv

/-- Exchanging the bounds of some variables is less than fixing these. -/
theorem exchange_subset_fixAt (hc : c ∈ box X) (v : String) : exchange N X v ⊆ fixAt N c X v := by
  have h := mem_box.1 hc v
  unfold exchange fixAt; split_ifs
  · exact ⟨h.2, h.1⟩
  · exact Subset.refl _

/-- Exchanging the bounds of some variables is more than fixing the others and exchanging all. -/
theorem dual_fixAt_subset_exchange (hc : c ∈ box X) (v : String) :
    (fixAt Nᶜ c X v).dual ⊆ exchange N X v := by
  have h := mem_box.1 hc v
  unfold exchange fixAt
  by_cases hN : v ∈ N
  · rw [if_pos hN, if_neg (notMem_compl_iff.2 hN)]; exact Subset.refl _
  · rw [if_neg hN, if_pos (mem_compl hN)]; exact h

variable (t : Term) (hX : ∀ v, (X v).lower ≤ (X v).upper) (hn : t.names.Nodup) (hc : c ∈ box X)

include hX hn hc

/-- The variables with exchanged bounds fixed, both bounds are within values of the others. -/
theorem exists_between_exchange :
    (∃ ρ ∈ box X, (∀ v ∈ N, ρ v = c v) ∧ t.value ρ ≤ (t.range (exchange N X)).lower) ∧
      ∃ ρ ∈ box X, (∀ v ∈ N, ρ v = c v) ∧ (t.range (exchange N X)).upper ≤ t.value ρ := by
  have hsub := t.range_subset_range fun v _ => exchange_subset_fixAt (N := N) hc v
  obtain ⟨⟨ρ, hρ, hl⟩, σ, hσ, hu⟩ := t.bounds_mem_image (fixAt_proper (N := N) (c := c) hX) hn
  obtain ⟨hρ, hρN⟩ := mem_box_fixAt hc hρ
  obtain ⟨hσ, hσN⟩ := mem_box_fixAt hc hσ
  exact ⟨⟨ρ, hρ, hρN, hl.trans_le hsub.1⟩, σ, hσ, hσN, hsub.2.trans_eq hu.symm⟩

/-- The other variables fixed, both bounds reach values of those with exchanged bounds. -/
theorem exists_beyond_exchange :
    (∃ ρ ∈ box X, (∀ v ∉ N, ρ v = c v) ∧ (t.range (exchange N X)).lower ≤ t.value ρ) ∧
      ∃ ρ ∈ box X, (∀ v ∉ N, ρ v = c v) ∧ t.value ρ ≤ (t.range (exchange N X)).upper := by
  have hsub := t.range_subset_range fun v _ => dual_fixAt_subset_exchange (N := N) hc v
  rw [range_dual] at hsub
  obtain ⟨⟨ρ, hρ, hl⟩, σ, hσ, hu⟩ := t.bounds_mem_image (fixAt_proper (N := Nᶜ) (c := c) hX) hn
  obtain ⟨hρ, hρN⟩ := mem_box_fixAt hc hρ
  obtain ⟨hσ, hσN⟩ := mem_box_fixAt hc hσ
  exact ⟨⟨σ, hσ, hσN, hsub.1.trans_eq hu.symm⟩, ρ, hρ, hρN, hl.trans_le hsub.2⟩

end

end Term

end ModalBounds
