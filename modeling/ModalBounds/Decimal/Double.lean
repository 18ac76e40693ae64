import ModalBounds.Decimal.Basic

/-!
# Double precision numbers as decimals

A finite double is `significand · 2 ^ scale` units of `2 ^ -1074`, the least positive double.
`Double.nearest` rounds a quotient of natural numbers to the nearest double, a tie to the even
significand, and `Double.shortest` chooses, among the decimals that round to a given double, one
with the fewest digits, and of those the nearest.
-/

namespace ModalBounds.Double

/-- The exponent of the unit `2 ^ -1074`. -/
def unitBits : Nat := 1074

/-- The number of bits of a significand after the first. -/
def fractionBits : Nat := 52

/-- The bits of a double without its sign. -/
def magnitudeBits (x : Float) : Nat := x.toBits.toNat % Nat.pow 2 63

def isNegative (x : Float) : Bool := decide (Nat.pow 2 63 ≤ x.toBits.toNat)

/-- The exponent field of a double. -/
def exponentField (x : Float) : Nat := magnitudeBits x / Nat.pow 2 fractionBits

/-- The significand of a double, with the leading bit that normal numbers do not store. -/
def significand (x : Float) : Nat :=
  let fraction := magnitudeBits x % Nat.pow 2 fractionBits
  if exponentField x = 0 then fraction else fraction + Nat.pow 2 fractionBits

/-- The power of two, in units, that the significand counts. -/
def scale (x : Float) : Nat := exponentField x - 1

/-- The double with a sign and a magnitude of `significand · 2 ^ scale` units. A significand that
has been rounded up to `2 ^ 53` carries into the exponent. -/
def ofFields (negative : Bool) (significand scale : Nat) : Float :=
  let bits := min (scale * Nat.pow 2 fractionBits + significand) (2047 * Nat.pow 2 fractionBits)
  Float.ofBits (UInt64.ofNat (if negative then bits + Nat.pow 2 63 else bits))

/-- The quotient rounded to the nearest natural number, a tie to the even one. -/
def divideToEven (n d : Nat) : Nat :=
  let q := n / d
  let r := n % d
  if 2 * r < d || (2 * r == d && q % 2 == 0) then q else q + 1

def nearest (negative : Bool) (n d : Nat) : Float :=
  let units := n * Nat.pow 2 unitBits
  let scale := (units / d).log2 - fractionBits
  ofFields negative (divideToEven units (d * Nat.pow 2 scale)) scale

/-- Powers of ten beyond which every decimal number is rounded to infinity, or to zero. -/
def exponentLimit : Int := 400

def ofDecimal (d : Decimal) : Float :=
  let point : Int := (toString d.digits).length + d.exponent
  if d.digits = 0 || point < -exponentLimit then ofFields d.negative 0 0
  else if exponentLimit < point then ofFields d.negative 0 2047
  else if 0 ≤ d.exponent then nearest d.negative (d.digits * Nat.pow 10 d.exponent.toNat) 1
  else nearest d.negative d.digits (Nat.pow 10 (-d.exponent).toNat)

/-! ### The shortest decimal -/

/-- The numbers that round to one double, in quarters of the unit `2 ^ -1074`. -/
structure RoundingRange where
  low : Nat
  value : Nat
  high : Nat
  /-- Whether `low` and `high` themselves round to the double. -/
  closed : Bool

/-- Half the distance to the neighbours on each side; below a power of two the distance is halved.
A tie goes to the even significand, so the ends belong to the range of an even one. -/
def roundingRange (significand scale : Nat) : RoundingRange :=
  let unit := Nat.pow 2 scale
  let value := 4 * significand * unit
  let below := if significand = Nat.pow 2 fractionBits && 0 < scale then unit else 2 * unit
  ⟨value - below, value, value + 2 * unit, significand % 2 = 0⟩

/-- The nearer of the grid points `c` and `c + 1`, where `offset` is the distance from the first and
`step` the distance of the two. -/
def nearer (tie : TieRule) (c offset step : Nat) : Nat :=
  if 2 * offset < step || (2 * offset == step && tie == .even && c % 2 == 0) then c else c + 1

/-- The multiple of `10 ^ k` that rounds to a double, if one of the two next to its value does; of
two the nearer. -/
def onGrid? (tie : TieRule) (r : RoundingRange) (k : Int) : Option Nat :=
  let factor := Nat.pow 10 (-k).toNat
  let step := Nat.pow 10 k.toNat * Nat.pow 2 (unitBits + 2)
  let inside (c : Nat) : Bool :=
    if r.closed then decide (r.low * factor ≤ c * step) && decide (c * step ≤ r.high * factor)
    else decide (r.low * factor < c * step) && decide (c * step < r.high * factor)
  let c := r.value * factor / step
  match inside c, inside (c + 1) with
  | true, true => some (nearer tie c (r.value * factor - c * step) step)
  | true, false => some c
  | false, true => some (c + 1)
  | false, false => none

/-- Tries ever finer grids. -/
def search (tie : TieRule) (r : RoundingRange) : (tries : Nat) → (k : Int) → Option (Nat × Int)
  | 0, _ => none
  | tries + 1, k =>
    match onGrid? tie r k with
    | some c => some (c, k)
    | none => search tie r tries (k - 1)

/-- Moves trailing zeros of the digits into the exponent, at most `limit` of them. -/
def stripZeros : (limit : Nat) → Nat → Int → Nat × Int
  | 0, digits, k => (digits, k)
  | limit + 1, digits, k =>
    if digits % 10 = 0 then stripZeros limit (digits / 10) (k + 1) else (digits, k)

/-- Seventeen digits tell any two doubles apart. The first grid is at most one digit too coarse. -/
def gridLimit : Nat := 20

/-- The shortest decimal that rounds to `significand · 2 ^ scale` units. The first grid tried has a
step above the value. Every multiple of the unit is a decimal, the last resort. -/
def shortest (tie : TieRule) (negative : Bool) (significand scale : Nat) : Decimal :=
  if significand = 0 then ⟨negative, 0, 0⟩
  else
    let bits : Int := (significand.log2 + 1 + scale : Nat) - (unitBits : Int)
    let start := bits * 30103 / 100000 + 1
    let (digits, k) := (search tie (roundingRange significand scale) gridLimit start).getD
      (significand * Nat.pow 2 scale * Nat.pow 5 unitBits, -unitBits)
    let (digits, k) := stripZeros gridLimit digits k
    ⟨negative, digits, k⟩

/-- The shortest decimal that rounds to a finite double. -/
def toDecimal? (tie : TieRule) (x : Float) : Option Decimal :=
  if x.isFinite then some (shortest tie (isNegative x) (significand x) (scale x)) else none

/-- The whole number that a double equals. -/
def integer? (x : Float) : Option Int :=
  let units := significand x * Nat.pow 2 (scale x)
  if x.isFinite && units % Nat.pow 2 unitBits == 0 then
    let n : Int := (units / Nat.pow 2 unitBits : Nat)
    some (if isNegative x then -n else n)
  else none

/-- The remainder of a division rounded toward zero, exact, with the sign of the dividend. -/
def rem (x y : Float) : Float :=
  if x.isFinite && !y.isNaN && y != 0 then
    if y.isFinite then
      let units := (significand x * Nat.pow 2 (scale x)) % (significand y * Nat.pow 2 (scale y))
      nearest (isNegative x) units (Nat.pow 2 unitBits)
    else x
  else Float.ofBits 0x7FF8000000000000

end ModalBounds.Double
