import Mathlib
import ModalBounds.Double

/-!
# Undefined numbers

`LawfulUndefined` says how numbers treat an undefined one, as IEEE arithmetic does: a comparison
with it is false, arithmetic and real functions pass it on, and the greater of two numbers is
undefined only if both are. Doubles obey the laws (`Double.lawfulUndefined`); the functions of the
platform, of which nothing is known here, have to pass an undefined number on.
-/

namespace ModalBounds

/-- The laws of undefined numbers. -/
class LawfulUndefined (α : Type) [Elementary α] : Prop where
  isNaN_nan : Scalar.isNaN (Scalar.nan : α) = true
  isNaN_zero : Scalar.isNaN (0 : α) = false
  not_le {a b : α} (h : Scalar.isNaN a = true ∨ Scalar.isNaN b = true) : ¬ a ≤ b
  not_lt {a b : α} (h : Scalar.isNaN a = true ∨ Scalar.isNaN b = true) : ¬ a < b
  beq_eq_false {a b : α} (h : Scalar.isNaN a = true ∨ Scalar.isNaN b = true) : (a == b) = false
  nonneg_or_neg {a : α} (h : Scalar.isNaN a = false) : 0 ≤ a ∨ a < 0
  nonpos_or_pos {a : α} (h : Scalar.isNaN a = false) : a ≤ 0 ∨ 0 < a
  isFinite_eq_false {a : α} (h : Scalar.isNaN a = true) : Scalar.isFinite a = false
  isNaN_max (a b : α) : Scalar.isNaN (max a b) = (Scalar.isNaN a && Scalar.isNaN b)
  isNaN_neg {a : α} (h : Scalar.isNaN a = true) : Scalar.isNaN (-a) = true
  isNaN_add {a b : α} (h : Scalar.isNaN a = true ∨ Scalar.isNaN b = true) : Scalar.isNaN (a + b) =
    true
  isNaN_sub {a b : α} (h : Scalar.isNaN a = true ∨ Scalar.isNaN b = true) : Scalar.isNaN (a - b) =
    true
  isNaN_div {a b : α} (h : Scalar.isNaN a = true ∨ Scalar.isNaN b = true) : Scalar.isNaN (a / b) =
    true
  isNaN_npow {a : α} {n : ℕ} (h : Scalar.isNaN a = true) (hn : n ≠ 0) :
    Scalar.isNaN (Scalar.npow a n) = true
  isNaN_exp {a : α} (h : Scalar.isNaN a = true) : Scalar.isNaN (Elementary.exp a) = true
  isNaN_log {a : α} (h : Scalar.isNaN a = true) : Scalar.isNaN (Elementary.log a) = true
  isNaN_sqrt {a : α} (h : Scalar.isNaN a = true) : Scalar.isNaN (Elementary.sqrt a) = true
  isNaN_tanh {a : α} (h : Scalar.isNaN a = true) : Scalar.isNaN (Elementary.tanh a) = true

/-! ### Doubles -/

namespace Double

open Float.Model (UnpackedFloat)

theorem isNaN_iff {a : Float} : a.isNaN = true ↔ a.toModel.unpack = .notANumber :=
  UnpackedFloat.isNaN_iff

theorem isNaN_pack : (Float.ofModel (.pack .notANumber)).isNaN = true := by decide

theorem compare_eq_none {a b : Float} (h : a.isNaN = true ∨ b.isNaN = true) :
    a.toModel.unpack.compare b.toModel.unpack = none := by
  rcases h with h | h <;> rw [isNaN_iff.1 h]
  · rfl
  · cases a.toModel.unpack <;> rfl

theorem not_le {a b : Float} (h : a.isNaN = true ∨ b.isNaN = true) : ¬ a ≤ b := by
  show ¬ decide ((a.toModel.unpack.compare b.toModel.unpack).any (·.isLE) = true) = true
  rw [compare_eq_none h]
  decide

theorem not_lt {a b : Float} (h : a.isNaN = true ∨ b.isNaN = true) : ¬ a < b := by
  show ¬ decide ((a.toModel.unpack.compare b.toModel.unpack == some .lt) = true) = true
  rw [compare_eq_none h]
  decide

theorem beq_eq_false {a b : Float} (h : a.isNaN = true ∨ b.isNaN = true) : (a == b) = false := by
  show (a.toModel.unpack.compare b.toModel.unpack == some .eq) = false
  rw [compare_eq_none h]
  rfl

theorem exists_compare_zero {a : Float} (h : a.isNaN = false) :
    ∃ o : Ordering, (0 : Float).toModel.unpack.compare a.toModel.unpack = some o ∧
      a.toModel.unpack.compare (0 : Float).toModel.unpack = some o.swap := by
  rw [show (0 : Float).toModel.unpack = .zero .positive from rfl]
  cases hu : a.toModel.unpack with
  | notANumber => rw [isNaN_iff.2 hu] at h; cases h
  | infinity s => cases s <;> exact ⟨_, rfl, rfl⟩
  | zero s => exact ⟨_, rfl, rfl⟩
  | finite s => cases s <;> exact ⟨_, rfl, rfl⟩

theorem nonneg_or_neg {a : Float} (h : a.isNaN = false) : 0 ≤ a ∨ a < 0 := by
  obtain ⟨o, ho, ho'⟩ := exists_compare_zero h
  show decide ((UnpackedFloat.compare _ _).any (·.isLE) = true) = true ∨
    decide ((UnpackedFloat.compare _ _ == some .lt) = true) = true
  rw [ho, ho']
  cases o <;> decide

theorem nonpos_or_pos {a : Float} (h : a.isNaN = false) : a ≤ 0 ∨ 0 < a := by
  obtain ⟨o, ho, ho'⟩ := exists_compare_zero h
  show decide ((UnpackedFloat.compare _ _).any (·.isLE) = true) = true ∨
    decide ((UnpackedFloat.compare _ _ == some .lt) = true) = true
  rw [ho, ho']
  cases o <;> decide

theorem isFinite_eq_false {a : Float} (h : a.isNaN = true) : a.isFinite = false := by
  show a.toModel.unpack.isFinite = false
  rw [isNaN_iff.1 h]
  rfl

theorem isNaN_greatest (a b : Float) : (greatest a b).isNaN = (a.isNaN && b.isNaN) := by
  unfold greatest
  cases hb : b.isNaN with
  | true => rw [Bool.true_or, if_pos rfl, Bool.and_true]
  | false =>
    rw [Bool.false_or, Bool.and_false]
    by_cases hlt : b < a
    · rw [if_pos (decide_eq_true hlt)]
      exact Bool.eq_false_iff.2 fun ha => not_lt (.inr ha) hlt
    · rw [if_neg (mt of_decide_eq_true hlt), hb]

theorem isNaN_neg {a : Float} (h : a.isNaN = true) : (-a).isNaN = true := by
  show (Float.ofModel (.pack (.neg a.toModel.unpack))).isNaN = true
  rw [isNaN_iff.1 h]
  exact isNaN_pack

theorem isNaN_sqrt {a : Float} (h : a.isNaN = true) : a.sqrt.isNaN = true := by
  show (Float.ofModel (.pack (.sqrt _ a.toModel.unpack))).isNaN = true
  rw [isNaN_iff.1 h]
  exact isNaN_pack

theorem isNaN_add {a b : Float} (h : a.isNaN = true ∨ b.isNaN = true) : (a + b).isNaN = true := by
  show (Float.ofModel (.pack (.add _ a.toModel.unpack b.toModel.unpack))).isNaN = true
  rcases h with h | h <;> rw [isNaN_iff.1 h]
  · exact isNaN_pack
  · cases a.toModel.unpack <;> exact isNaN_pack

theorem isNaN_sub {a b : Float} (h : a.isNaN = true ∨ b.isNaN = true) : (a - b).isNaN = true := by
  show (Float.ofModel (.pack (.sub _ a.toModel.unpack b.toModel.unpack))).isNaN = true
  rcases h with h | h <;> rw [isNaN_iff.1 h]
  · exact isNaN_pack
  · cases a.toModel.unpack <;> exact isNaN_pack

theorem isNaN_div {a b : Float} (h : a.isNaN = true ∨ b.isNaN = true) : (a / b).isNaN = true := by
  show (Float.ofModel (.pack (.div _ a.toModel.unpack b.toModel.unpack))).isNaN = true
  rcases h with h | h <;> rw [isNaN_iff.1 h]
  · exact isNaN_pack
  · cases a.toModel.unpack <;> exact isNaN_pack

/-- The doubles with given powers, exponentials, logarithms and hyperbolic tangents. -/
@[reducible] def withFunctions (npow : Float → Nat → Float) (exp log tanh : Float → Float) :
    Elementary Float :=
  { (inferInstance : Elementary Float) with npow, exp, log, tanh }

/-- Doubles obey the laws if their functions pass an undefined number on. -/
theorem lawfulUndefined {npow : Float → Nat → Float} {exp log tanh : Float → Float}
    (hnpow : ∀ a n, a.isNaN = true → n ≠ 0 → (npow a n).isNaN = true)
    (hexp : ∀ a, a.isNaN = true → (exp a).isNaN = true)
    (hlog : ∀ a, a.isNaN = true → (log a).isNaN = true)
    (htanh : ∀ a, a.isNaN = true → (tanh a).isNaN = true) :
    @LawfulUndefined Float (withFunctions npow exp log tanh) :=
  letI := withFunctions npow exp log tanh
  { isNaN_nan := show (0 / 0 : Float).isNaN = true by decide
    isNaN_zero := show (0 : Float).isNaN = false by decide
    not_le, not_lt, beq_eq_false, nonneg_or_neg, nonpos_or_pos, isFinite_eq_false
    isNaN_max := isNaN_greatest
    isNaN_neg, isNaN_add, isNaN_sub, isNaN_div, isNaN_sqrt
    isNaN_npow := hnpow _ _
    isNaN_exp := hexp _
    isNaN_log := hlog _
    isNaN_tanh := htanh _ }

/-- The doubles with identities for functions, for models that apply none. -/
@[reducible] def withIdentities : Elementary Float := withFunctions (fun a _ => a) id id id

instance : @LawfulUndefined Float withIdentities :=
  lawfulUndefined (fun _ _ h _ => h) (fun _ h => h) (fun _ h => h) fun _ h => h

end Double

end ModalBounds
