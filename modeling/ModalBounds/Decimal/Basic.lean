/-!
# Decimal numbers and their notations

A `Decimal` is a signed number of decimal digits and a power of ten. `NumberFormat` says where its
positional form ends and how a whole number is written, and `NumberFormat.write` lays out the
digits.
-/

namespace ModalBounds

/-- The number `± digits · 10 ^ exponent`. Zero has a sign too. -/
structure Decimal where
  negative : Bool
  digits : Nat
  exponent : Int
deriving DecidableEq, Repr, Inhabited

/-- Which of two equally near decimals is written. -/
inductive TieRule where
  /-- The one of greater magnitude. -/
  | away
  /-- The one whose last digit is even. -/
  | even
deriving DecidableEq, Repr

/-- How a number is written in decimal digits. -/
structure NumberFormat where
  tie : TieRule
  /-- The exponents of the first digit that are written positionally; all of them if absent. -/
  positional : Option (Int × Int)
  /-- Whether a whole number written positionally ends in `.0`. -/
  wholePoint : Bool

namespace NumberFormat

/-- Always positional, and whole numbers without a point. -/
def plain : NumberFormat := ⟨.away, none, false⟩

/-- The notation of JSON texts: positional from `0.00001` up to sixteen digits before the point,
which is always written; scientific outside. -/
def json : NumberFormat := ⟨.even, some (-5, 15), true⟩

/-- Digits with the point after the first `point` of them, filled up with zeros. -/
def writePositional (f : NumberFormat) (digits : List Char) (point : Int) : List Char :=
  let n : Int := digits.length
  if n ≤ point then
    digits ++ List.replicate (point - n).toNat '0' ++ (if f.wholePoint then ['.', '0'] else [])
  else if 0 < point then
    digits.take point.toNat ++ '.' :: digits.drop point.toNat
  else
    '0' :: '.' :: (List.replicate (-point).toNat '0' ++ digits)

/-- One digit before the point, and the power of ten with its sign. -/
def writeScientific (digits : List Char) (exponent : Int) : List Char :=
  let mantissa := match digits with
    | [] => []
    | [d] => [d]
    | d :: ds => d :: '.' :: ds
  let sign := if exponent < 0 then '-' else '+'
  mantissa ++ 'e' :: sign :: (toString exponent.natAbs).toList

def write (f : NumberFormat) (d : Decimal) : String :=
  let digits := (toString d.digits).toList
  let point : Int := digits.length + d.exponent
  let isPositional := match f.positional with
    | none => true
    | some (least, greatest) => decide (least ≤ point - 1) && decide (point - 1 ≤ greatest)
  let text := if isPositional then f.writePositional digits point
    else writeScientific digits (point - 1)
  String.ofList (if d.negative then '-' :: text else text)

end NumberFormat

end ModalBounds
