import ModalBounds.Decimal.Double
import ModalBounds.Decimal.Numeral

/-!
# Double precision bounds

The number type that programs run with: IEEE doubles. Two bounds are almost equal if they differ by
at most `1e-12`, or by that fraction of the larger one.
-/

namespace ModalBounds

namespace Double

/-- The lesser number; one that is undefined yields to the other, and of two equal ones the second
is taken, which shows in the sign of zero. -/
def least (a b : Float) : Float := if b.isNaN || a < b then a else b

/-- The greater number; one that is undefined yields to the other, and of two equal ones the second
is taken. -/
def greatest (a b : Float) : Float := if b.isNaN || b < a then a else b

/-- The integral part, with the sign of the number. -/
def trunc (x : Float) : Float := if x < 0 then x.ceil else x.floor

end Double

instance : Elementary Float where
  zero := 0
  one := 1
  natCast := Float.ofNat
  neg x := -x
  add x y := x + y
  sub x y := x - y
  mul x y := x * y
  div x y := x / y
  le x y := x ≤ y
  lt x y := x < y
  beq x y := x == y
  min := Double.least
  max := Double.greatest
  decLe := inferInstanceAs (∀ x y : Float, Decidable (x ≤ y))
  decLt := inferInstanceAs (∀ x y : Float, Decidable (x < y))
  nan := 0 / 0
  infinity := 1 / 0
  isNaN := Float.isNaN
  isFinite := Float.isFinite
  magnitude := Float.abs
  integer? := Double.integer?
  npow x n := Float.pow x (Float.ofNat n)
  absoluteTolerance := 1e-12
  relativeTolerance := 1e-12
  exp := Float.exp
  log := Float.log
  sqrt := Float.sqrt
  sin := Float.sin
  tan := Float.tan
  tanh := Float.tanh
  floor := Float.floor
  ceil := Float.ceil
  trunc := Double.trunc
  rem := Double.rem
  pi := 3.141592653589793

instance : Numeral Float where
  ofDecimal := Double.ofDecimal
  toDecimal? := Double.toDecimal?

end ModalBounds
