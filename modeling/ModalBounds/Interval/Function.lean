import ModalBounds.Interval.Modal
import ModalBounds.Interval.Wave

/-!
# Real functions of modal intervals

A monotone function acts on each bound; the others act on the proper form and give the result the
modality of their operand. Outside a function's domain a bound is undefined.
-/

namespace ModalBounds.ModalInterval

variable {α : Type} [Elementary α]

def exp (x : ModalInterval α) : ModalInterval α :=
  of (Elementary.exp x.lower) (Elementary.exp x.upper)

/-- The natural logarithm; undefined as soon as a bound is not positive. -/
def log (x : ModalInterval α) : ModalInterval α :=
  if x.lower ≤ 0 || x.upper ≤ 0 then undefined
  else of (Elementary.log x.lower) (Elementary.log x.upper)

/-- The square root of a bound; undefined for a negative one. -/
def rootBound (bound : α) : α := if bound < 0 then Scalar.nan else Elementary.sqrt bound

/-- The square root. A negative bound becomes undefined on its own. -/
def sqrt (x : ModalInterval α) : ModalInterval α := of (rootBound x.lower) (rootBound x.upper)

def sin (x : ModalInterval α) : ModalInterval α := x.onProper Wave.sine.range

/-- The cosine, a sine that is a quarter of a period ahead. -/
def cos (x : ModalInterval α) : ModalInterval α :=
  x.onProper fun lower upper =>
    Wave.sine.range (lower + Elementary.halfPi) (upper + Elementary.halfPi)

def tan (x : ModalInterval α) : ModalInterval α := x.onProper tangentRange

def tanh (x : ModalInterval α) : ModalInterval α :=
  of (Elementary.tanh x.lower) (Elementary.tanh x.upper)

/-- The analytic quotient, `x` divided by the square root of `1 + y²`. -/
def analyticQuotient (x y : ModalInterval α) : ModalInterval α :=
  x * (point 1 + y.square).sqrt.recip

end ModalBounds.ModalInterval
