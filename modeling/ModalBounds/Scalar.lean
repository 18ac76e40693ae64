/-!
# Numbers that bound an interval

`Scalar` is what interval arithmetic asks of a bound: the field operations, comparisons, the values
that are no finite number, and the tolerance below which two bounds count as one. A comparison with
an undefined number is false on either side, so no law of a linear order is assumed. `Elementary`
adds the real functions that a symbolic model may apply.
-/

namespace ModalBounds

/-- A number type for interval bounds. `==`, `≤` and `<` are false when an operand is undefined;
`min` and `max` return the other operand then. -/
class Scalar (α : Type) extends Zero α, One α, NatCast α, Neg α, Add α, Sub α, Mul α, Div α,
    LE α, LT α, BEq α, Min α, Max α where
  decLe : DecidableLE α
  decLt : DecidableLT α
  /-- The undefined number. -/
  nan : α
  infinity : α
  isNaN : α → Bool
  isFinite : α → Bool
  /-- The absolute value. -/
  magnitude : α → α
  /-- The integer that a number equals, if it is finite and has no fractional part. -/
  integer? : α → Option Int
  /-- A number raised to a natural exponent. -/
  npow : α → Nat → α
  /-- Two numbers this close count as equal. -/
  absoluteTolerance : α
  /-- Two numbers whose distance is at most this fraction of the larger magnitude count as equal. -/
  relativeTolerance : α

instance Scalar.decidableLE {α : Type} [Scalar α] : DecidableLE α := Scalar.decLe

instance Scalar.decidableLT {α : Type} [Scalar α] : DecidableLT α := Scalar.decLt

/-- A number type with the real functions of symbolic models. -/
class Elementary (α : Type) extends Scalar α where
  exp : α → α
  log : α → α
  sqrt : α → α
  sin : α → α
  tan : α → α
  tanh : α → α
  floor : α → α
  ceil : α → α
  /-- The integral part, rounded toward zero. -/
  trunc : α → α
  /-- The remainder of a division rounded toward zero; it has the sign of the dividend. -/
  rem : α → α → α
  pi : α

def Elementary.halfPi {α : Type} [Elementary α] : α := pi / ((2 : Nat) : α)

end ModalBounds
