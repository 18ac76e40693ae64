import ModalBounds.Scalar

/-!
# Modal intervals

A modal interval is a pair of bounds in either order. With `lower ≤ upper` it is *proper* and stands
for "some value of the range"; reversed it is *improper* and stands for "every value of the range".
Since `dual` exchanges the two readings, addition and multiplication have inverses. A result that is
not defined is an interval with an undefined bound, never an error.

Rounding leaves intervals whose two bounds differ in their last digits. `isAlmost` says when such a
difference is noise, and `collapse` removes it, so that noise never reverses an interval.
-/

namespace ModalBounds

/-! ### When two bounds count as one -/

section
variable {α : Type} [Scalar α]

/-- Whether two numbers are equal up to the tolerances of their type. An infinite or undefined
number is close to nothing but its equals. -/
def isAlmost (a b : α) : Bool :=
  a == b ||
    (Scalar.isFinite a && Scalar.isFinite b &&
      let distance := Scalar.magnitude (a - b)
      (distance ≤ Scalar.absoluteTolerance ||
        distance ≤ Scalar.relativeTolerance * max (Scalar.magnitude a) (Scalar.magnitude b)))

/-- Whether zero lies between the two numbers, in either order. -/
def straddlesZero (a b : α) : Bool :=
  (decide (a ≤ 0) && decide (0 ≤ b)) || (decide (b ≤ 0) && decide (0 ≤ a))

/-- Makes bounds that are almost equal exactly equal: to zero if zero lies between them, to the
lower one otherwise. -/
def collapse (lower upper : α) : α × α :=
  if isAlmost lower upper then
    if straddlesZero lower upper then (0, 0) else (lower, lower)
  else (lower, upper)

end

/-! ### Intervals -/

/-- A pair of bounds, in either order. -/
structure ModalInterval (α : Type) where
  lower : α
  upper : α
deriving BEq, Repr, Inhabited

/-- The sign pattern of a modal interval. -/
inductive SignPattern where
  /-- No bound is negative. -/
  | nonneg
  /-- Only the lower bound is negative: a proper interval around zero. -/
  | around
  /-- Only the upper bound is negative: the dual of an interval around zero. -/
  | aroundDual
  /-- Both bounds are negative. -/
  | negative
deriving DecidableEq, Repr

namespace ModalInterval

variable {α : Type} [Scalar α]

/-- The interval of two bounds, made a point if they are almost equal. -/
def of (lower upper : α) : ModalInterval α :=
  let (lower, upper) := collapse lower upper
  ⟨lower, upper⟩

def point (value : α) : ModalInterval α := of value value

def undefined : ModalInterval α := ⟨Scalar.nan, Scalar.nan⟩

/-- A single value is proper. -/
def isProper (x : ModalInterval α) : Bool := x.lower ≤ x.upper

def isImproper (x : ModalInterval α) : Bool := x.upper < x.lower

def isDegenerate (x : ModalInterval α) : Bool := x.lower == x.upper

def isUndefined (x : ModalInterval α) : Bool := Scalar.isNaN x.lower || Scalar.isNaN x.upper

def isFinite (x : ModalInterval α) : Bool := Scalar.isFinite x.lower && Scalar.isFinite x.upper

omit [Scalar α] in
/-- The interval with its bounds exchanged. -/
def dual (x : ModalInterval α) : ModalInterval α := ⟨x.upper, x.lower⟩

/-- The proper interval with the same values. -/
def proper (x : ModalInterval α) : ModalInterval α := if x.isImproper then x.dual else x

def mid (x : ModalInterval α) : α := (x.lower + x.upper) / ((2 : Nat) : α)

/-- The distance from the lower to the upper bound, negative for improper intervals. -/
def width (x : ModalInterval α) : α := x.upper - x.lower

/-- Inclusion of modal intervals, bound by bound. -/
def isSubset (x y : ModalInterval α) : Bool :=
  decide (y.lower ≤ x.lower) && decide (x.upper ≤ y.upper)

def contains (x : ModalInterval α) (value : α) : Bool :=
  decide (x.proper.lower ≤ value) && decide (value ≤ x.proper.upper)

def signPattern (x : ModalInterval α) : SignPattern :=
  match decide (0 ≤ x.lower), decide (0 ≤ x.upper) with
  | true, true => .nonneg
  | false, true => .around
  | true, false => .aroundDual
  | false, false => .negative

/-- Applies a function on proper intervals to the proper form; the result is improper where the
operand is. -/
def onProper (f : α → α → α × α) (x : ModalInterval α) : ModalInterval α :=
  let (lower, upper) := f x.proper.lower x.proper.upper
  let image := of lower upper
  if x.isImproper then image.dual else image

/-! ### Sums and products -/

def neg (x : ModalInterval α) : ModalInterval α := of (-x.upper) (-x.lower)

def add (x y : ModalInterval α) : ModalInterval α := of (x.lower + y.lower) (x.upper + y.upper)

def sub (x y : ModalInterval α) : ModalInterval α := of (x.lower - y.upper) (x.upper - y.lower)

/-- The bounds of a product, by the sign patterns of the factors. Which bounds meet is decided by
the modality of the factors: a proper one contributes its extreme that is worst, an improper one the
one that is best. -/
def productBounds (x y : ModalInterval α) : α × α :=
  let (a₁, a₂) := (x.lower, x.upper)
  let (b₁, b₂) := (y.lower, y.upper)
  match x.signPattern, y.signPattern with
  | .nonneg, .nonneg => (a₁ * b₁, a₂ * b₂)
  | .nonneg, .around => (a₂ * b₁, a₂ * b₂)
  | .nonneg, .negative => (a₂ * b₁, a₁ * b₂)
  | .nonneg, .aroundDual => (a₁ * b₁, a₁ * b₂)
  | .around, .nonneg => (a₁ * b₂, a₂ * b₂)
  | .around, .around => (min (a₁ * b₂) (a₂ * b₁), max (a₁ * b₁) (a₂ * b₂))
  | .around, .negative => (a₂ * b₁, a₁ * b₁)
  | .around, .aroundDual => (0, 0)
  | .negative, .nonneg => (a₁ * b₂, a₂ * b₁)
  | .negative, .around => (a₁ * b₂, a₁ * b₁)
  | .negative, .negative => (a₂ * b₂, a₁ * b₁)
  | .negative, .aroundDual => (a₂ * b₂, a₂ * b₁)
  | .aroundDual, .nonneg => (a₁ * b₁, a₂ * b₁)
  | .aroundDual, .around => (0, 0)
  | .aroundDual, .negative => (a₂ * b₂, a₁ * b₂)
  | .aroundDual, .aroundDual => (max (a₁ * b₁) (a₂ * b₂), min (a₁ * b₂) (a₂ * b₁))

/-- The product; undefined unless all four bounds are finite. -/
def mul (x y : ModalInterval α) : ModalInterval α :=
  if x.isFinite && y.isFinite then
    let (lower, upper) := productBounds x y
    of lower upper
  else undefined

/-- The reciprocal of a bound. Zero becomes an infinity with the sign of the interval's other
bound. -/
def invBound (value other : α) : α :=
  if value == 0 then
    if 0 < other then Scalar.infinity else -Scalar.infinity
  else 1 / value

/-- The reciprocal; undefined if zero lies inside the proper form or is all of it. -/
def recip (x : ModalInterval α) : ModalInterval α :=
  let p := x.proper
  if (decide (p.lower < 0) && decide (0 < p.upper)) || (p.lower == 0 && p.upper == 0) then undefined
  else of (invBound x.upper x.lower) (invBound x.lower x.upper)

def div (x y : ModalInterval α) : ModalInterval α := x.mul y.recip

/-- The difference that takes back an addition: subtracts the dual. -/
def innerSub (x y : ModalInterval α) : ModalInterval α := x.sub y.dual

instance : Neg (ModalInterval α) := ⟨neg⟩
instance : Add (ModalInterval α) := ⟨add⟩
instance : Sub (ModalInterval α) := ⟨sub⟩
instance : Mul (ModalInterval α) := ⟨mul⟩
instance : Div (ModalInterval α) := ⟨div⟩

/-! ### Absolute values and powers -/

def abs (x : ModalInterval α) : ModalInterval α :=
  x.onProper fun lower upper =>
    if 0 ≤ lower then (lower, upper)
    else if upper ≤ 0 then (-upper, -lower)
    else (0, max (-lower) upper)

/-- A power with a natural exponent. An odd power is monotone and acts on each bound; an even one
folds the negative part of the range onto the positive part. -/
def npow (x : ModalInterval α) (n : Nat) : ModalInterval α :=
  if n = 0 then point 1
  else if n % 2 = 1 then of (Scalar.npow x.lower n) (Scalar.npow x.upper n)
  else
    x.onProper fun lower upper =>
      if 0 ≤ lower then (Scalar.npow lower n, Scalar.npow upper n)
      else if upper ≤ 0 then (Scalar.npow upper n, Scalar.npow lower n)
      else (0, max (Scalar.npow lower n) (Scalar.npow upper n))

/-- A power with an integer exponent; a negative one goes through the reciprocal. -/
def zpow (x : ModalInterval α) (n : Int) : ModalInterval α :=
  if n < 0 then (x.npow n.natAbs).recip else x.npow n.natAbs

def square (x : ModalInterval α) : ModalInterval α := x.zpow 2

/-- The integers that may stand in an exponent: those of 32 bits. -/
def exponent? (e : α) : Option Int :=
  (Scalar.integer? e).filter fun n => decide (-2147483648 ≤ n) && decide (n ≤ 2147483647)

/-- A power whose exponent is given as a number, if it is an integer of 32 bits. -/
def pow? (x : ModalInterval α) (exponent : α) : Option (ModalInterval α) :=
  (exponent? exponent).map x.zpow

end ModalInterval

end ModalBounds
