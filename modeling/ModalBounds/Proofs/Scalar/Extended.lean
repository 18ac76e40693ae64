import Mathlib
import ModalBounds.Proofs.Scalar.Field

/-!
# Exact bounds that may be undefined

The numbers of an ordered field with two infinities and an undefined number. Arithmetic is that of
the field on finite numbers, and elsewhere that of floating-point numbers: a quotient by zero and
the square root of a negative number are no numbers, and all comparisons with the undefined number
fail. Zero has no sign. Both tolerances are a parameter `ε`; with `ε = 0` two bounds are almost
equal only if they are equal.
-/

namespace ModalBounds

/-- The numbers of `K`, the infinities and the undefined number, with the tolerances `ε`. -/
inductive Extended {K : Type} (ε : K) where
  | finite (x : K)
  | infinite (negative : Bool)
  | undefined
deriving DecidableEq, Inhabited

namespace Extended

variable {K : Type} {ε : K}

section
variable [Field K] [LinearOrder K]

def neg : Extended ε → Extended ε
  | finite x => finite (-x)
  | infinite negative => infinite !negative
  | undefined => undefined

def add : Extended ε → Extended ε → Extended ε
  | finite x, finite y => finite (x + y)
  | infinite a, infinite b => if a = b then infinite a else undefined
  | infinite a, finite _ => infinite a
  | finite _, infinite b => infinite b
  | _, _ => undefined

def sub : Extended ε → Extended ε → Extended ε
  | finite x, finite y => finite (x - y)
  | x, y => x.add y.neg

def scale (negative : Bool) (x : K) : Extended ε :=
  if x = 0 then undefined else infinite (negative != decide (x < 0))

def mul : Extended ε → Extended ε → Extended ε
  | finite x, finite y => finite (x * y)
  | infinite a, infinite b => infinite (a != b)
  | infinite a, finite y => scale a y
  | finite x, infinite b => scale b x
  | _, _ => undefined

def div : Extended ε → Extended ε → Extended ε
  | finite x, finite y => if y = 0 then scale false x else finite (x / y)
  | infinite a, finite y => infinite (a != decide (y < 0))
  | finite _, infinite _ => finite 0
  | _, _ => undefined

def Le : Extended ε → Extended ε → Prop
  | finite x, finite y => x ≤ y
  | finite _, infinite b => b = false
  | infinite a, finite _ => a = true
  | infinite a, infinite b => a = true ∨ b = false
  | _, _ => False

def Lt : Extended ε → Extended ε → Prop
  | finite x, finite y => x < y
  | finite _, infinite b => b = false
  | infinite a, finite _ => a = true
  | infinite a, infinite b => a = true ∧ b = false
  | _, _ => False

instance : DecidableRel (Le : Extended ε → Extended ε → Prop)
  | finite x, finite y => inferInstanceAs (Decidable (x ≤ y))
  | finite _, infinite b => inferInstanceAs (Decidable (b = false))
  | infinite a, finite _ => inferInstanceAs (Decidable (a = true))
  | infinite a, infinite b => inferInstanceAs (Decidable (a = true ∨ b = false))
  | finite _, undefined | infinite _, undefined | undefined, _ => inferInstanceAs (Decidable False)

instance : DecidableRel (Lt : Extended ε → Extended ε → Prop)
  | finite x, finite y => inferInstanceAs (Decidable (x < y))
  | finite _, infinite b => inferInstanceAs (Decidable (b = false))
  | infinite a, finite _ => inferInstanceAs (Decidable (a = true))
  | infinite a, infinite b => inferInstanceAs (Decidable (a = true ∧ b = false))
  | finite _, undefined | infinite _, undefined | undefined, _ => inferInstanceAs (Decidable False)

/-- The undefined number does not equal itself. -/
def equal : Extended ε → Extended ε → Bool
  | finite x, finite y => decide (x = y)
  | infinite a, infinite b => a == b
  | _, _ => false

/-- The lesser number; an undefined one yields to the other. -/
def least : Extended ε → Extended ε → Extended ε
  | finite x, finite y => finite (min x y)
  | undefined, y => y
  | x, undefined => x
  | x, y => if x.Le y then x else y

/-- The greater number; an undefined one yields to the other. -/
def greatest : Extended ε → Extended ε → Extended ε
  | finite x, finite y => finite (max x y)
  | undefined, y => y
  | x, undefined => x
  | x, y => if x.Le y then y else x

/-- A power; the power zero of any number is one. -/
def npow : Extended ε → ℕ → Extended ε
  | finite x, n => finite (x ^ n)
  | infinite a, n => if n = 0 then finite 1 else infinite (a && decide (n % 2 = 1))
  | undefined, n => if n = 0 then finite 1 else undefined

variable [FloorRing K]

instance : Scalar (Extended ε) where
  zero := finite 0
  one := finite 1
  natCast n := finite n
  neg := neg
  add := add
  sub := sub
  mul := mul
  div := div
  le := Le
  lt := Lt
  beq := equal
  min := least
  max := greatest
  decLe := inferInstanceAs (DecidableRel (Le : Extended ε → Extended ε → Prop))
  decLt := inferInstanceAs (DecidableRel (Lt : Extended ε → Extended ε → Prop))
  nan := undefined
  infinity := infinite false
  isNaN
    | undefined => true
    | _ => false
  isFinite
    | finite _ => true
    | _ => false
  magnitude
    | finite x => finite |x|
    | infinite _ => infinite false
    | undefined => undefined
  integer?
    | finite x => Scalar.integer? x
    | _ => none
  npow := npow
  absoluteTolerance := finite ε
  relativeTolerance := finite ε

variable [RealFunctions K]

instance : Elementary (Extended ε) where
  exp
    | finite x => finite (RealFunctions.exp x)
    | infinite a => if a then finite 0 else infinite false
    | undefined => undefined
  log
    | finite x =>
      if 0 < x then finite (RealFunctions.log x) else if x = 0 then infinite true else undefined
    | infinite a => if a then undefined else infinite false
    | undefined => undefined
  sqrt
    | finite x => if x < 0 then undefined else finite (RealFunctions.sqrt x)
    | infinite a => if a then undefined else infinite false
    | undefined => undefined
  sin
    | finite x => finite (RealFunctions.sin x)
    | _ => undefined
  tan
    | finite x => finite (RealFunctions.tan x)
    | _ => undefined
  tanh
    | finite x => finite (RealFunctions.tanh x)
    | infinite a => finite (if a then -1 else 1)
    | undefined => undefined
  floor
    | finite x => finite (Elementary.floor x)
    | x => x
  ceil
    | finite x => finite (Elementary.ceil x)
    | x => x
  trunc
    | finite x => finite (Elementary.trunc x)
    | x => x
  rem
    | finite x, finite y => if y = 0 then undefined else finite (Elementary.rem x y)
    | finite x, infinite _ => finite x
    | _, _ => undefined
  pi := finite RealFunctions.pi

end

section
variable [Field K] [LinearOrder K] [FloorRing K]

/-! ### Finite numbers -/

theorem zero_eq : (0 : Extended ε) = finite 0 := rfl

theorem one_eq : (1 : Extended ε) = finite 1 := rfl

variable (x y : K)

@[simp] theorem finite_add : (finite x + finite y : Extended ε) = finite (x + y) := rfl

@[simp] theorem finite_sub : (finite x - finite y : Extended ε) = finite (x - y) := rfl

@[simp] theorem finite_mul : (finite x * finite y : Extended ε) = finite (x * y) := rfl

@[simp] theorem finite_neg : (-finite x : Extended ε) = finite (-x) := rfl

theorem finite_div {y : K} (hy : y ≠ 0) : (finite x / finite y : Extended ε) = finite (x / y) :=
  if_neg hy

@[simp] theorem finite_min : min (finite x : Extended ε) (finite y) = finite (min x y) := rfl

@[simp] theorem finite_max : max (finite x : Extended ε) (finite y) = finite (max x y) := rfl

@[simp] theorem finite_le : (finite x : Extended ε) ≤ finite y ↔ x ≤ y := .rfl

@[simp] theorem finite_lt : (finite x : Extended ε) < finite y ↔ x < y := .rfl

@[simp] theorem finite_beq : Scalar.toBEq.beq (finite x : Extended ε) (finite y) = decide (x = y) :=
  rfl

@[simp] theorem npow_finite (n : ℕ) : Scalar.npow (finite x : Extended ε) n = finite (x ^ n) := rfl

@[simp] theorem magnitude_finite : Scalar.magnitude (finite x : Extended ε) = finite |x| := rfl

@[simp] theorem isFinite_finite : Scalar.isFinite (finite x : Extended ε) = true := rfl

theorem isFinite_iff {x : Extended ε} : Scalar.isFinite x = true ↔ ∃ a, x = finite a := by
  cases x with
  | finite a => exact ⟨fun _ => ⟨a, rfl⟩, fun _ => rfl⟩
  | infinite negative => exact ⟨fun h => (nomatch h), fun ⟨_, h⟩ => nomatch h⟩
  | undefined => exact ⟨fun h => (nomatch h), fun ⟨_, h⟩ => nomatch h⟩

theorem isAlmost_finite : isAlmost (finite x : Extended ε) (finite y) = true ↔
    x = y ∨ |x - y| ≤ ε ∨ |x - y| ≤ ε * max |x| |y| := by
  have habs : (Scalar.absoluteTolerance : Extended ε) = finite ε := rfl
  have hrel : (Scalar.relativeTolerance : Extended ε) = finite ε := rfl
  simp [isAlmost, habs, hrel]

theorem straddlesZero_finite :
    straddlesZero (finite x : Extended ε) (finite y) = straddlesZero x y := rfl

end

end Extended

end ModalBounds
