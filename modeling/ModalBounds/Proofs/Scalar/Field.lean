import Mathlib
import ModalBounds.Interval.Modal
import ModalBounds.Evaluation.Program

/-!
# Exact bounds

The numbers of an ordered field as bounds: arithmetic does not round, every number is defined and
finite, and two bounds are almost equal only if they are equal, so no interval is ever collapsed
(`of_eq`). The undefined and the infinite number of `Scalar` have no counterpart in a field; zero
stands in for them, as it does for the quotient by zero.
-/

namespace ModalBounds

-- The laws of an ordered field are stated with its own operations, so these are to be found first.
attribute [instance (50)] Scalar.toZero Scalar.toOne Scalar.toNatCast Scalar.toNeg Scalar.toAdd
  Scalar.toSub Scalar.toMul Scalar.toDiv Scalar.toLE Scalar.toLT Scalar.toBEq Scalar.toMin
  Scalar.toMax Scalar.decidableLE Scalar.decidableLT

/-- Real functions on a number type, of which nothing is assumed. -/
class RealFunctions (K : Type) where
  exp : K → K
  log : K → K
  sqrt : K → K
  sin : K → K
  tan : K → K
  tanh : K → K
  pi : K

/-- Functions that are zero everywhere, for models that apply none. -/
@[reducible] def RealFunctions.zero {K : Type} [Zero K] : RealFunctions K where
  exp _ := 0
  log _ := 0
  sqrt _ := 0
  sin _ := 0
  tan _ := 0
  tanh _ := 0
  pi := 0

section
variable {K : Type} [Field K] [LinearOrder K] [FloorRing K]

instance : Scalar K where
  toZero := inferInstance
  toOne := inferInstance
  toNatCast := inferInstance
  toNeg := inferInstance
  toAdd := inferInstance
  toSub := inferInstance
  toMul := inferInstance
  toDiv := inferInstance
  toLE := inferInstance
  toLT := inferInstance
  toBEq := instBEqOfDecidableEq
  toMin := inferInstance
  toMax := inferInstance
  decLe := inferInstance
  decLt := inferInstance
  nan := 0
  infinity := 0
  isNaN _ := false
  isFinite _ := true
  magnitude x := |x|
  integer? x := if (⌊x⌋ : K) = x then some ⌊x⌋ else none
  npow x n := x ^ n
  absoluteTolerance := 0
  relativeTolerance := 0

instance [RealFunctions K] : Elementary K where
  exp := RealFunctions.exp
  log := RealFunctions.log
  sqrt := RealFunctions.sqrt
  sin := RealFunctions.sin
  tan := RealFunctions.tan
  tanh := RealFunctions.tanh
  pi := RealFunctions.pi
  floor x := ⌊x⌋
  ceil x := ⌈x⌉
  trunc x := if x < 0 then ⌈x⌉ else ⌊x⌋
  rem x y := x - y * (if x / y < 0 then ⌈x / y⌉ else ⌊x / y⌋)

end

namespace Exact

variable {K : Type} [Field K] [LinearOrder K] [FloorRing K]

@[simp] theorem isNaN_eq (x : K) : Scalar.isNaN x = false := rfl

@[simp] theorem npow_eq (x : K) (n : ℕ) : Scalar.npow x n = x ^ n := rfl

variable [IsStrictOrderedRing K]

theorem isAlmost_eq (a b : K) : isAlmost a b = decide (a = b) := by
  have h : (0 : K) * max |a| |b| = 0 := zero_mul _
  by_cases hab : a = b
  · simp [isAlmost, hab]
  · have hd : ¬ |a - b| ≤ 0 := fun h0 => hab (sub_eq_zero.1 (abs_nonpos_iff.1 h0))
    simp [isAlmost, hab, Scalar.magnitude, Scalar.absoluteTolerance, Scalar.relativeTolerance, hd]

theorem collapse_eq (a b : K) : collapse a b = (a, b) := by
  rw [collapse, isAlmost_eq]
  by_cases hab : a = b
  · subst hab
    by_cases hz : straddlesZero a a = true
    · have h0 : a = 0 := by
        simp only [straddlesZero, Bool.or_self, Bool.and_eq_true, decide_eq_true_eq] at hz
        exact le_antisymm hz.1 hz.2
      subst h0; simp
    · simp [hz]
  · simp [hab]

end Exact

namespace ModalInterval

variable {K : Type} [Field K] [LinearOrder K] [FloorRing K] [IsStrictOrderedRing K]

@[simp] theorem of_eq (a b : K) : of a b = ⟨a, b⟩ := by
  rw [of, Exact.collapse_eq]

@[simp] theorem point_eq (a : K) : point a = ⟨a, a⟩ := of_eq a a

end ModalInterval

end ModalBounds
