import ModalBounds.Decimal.Basic

/-!
# Reading decimal numbers

`Decimal.read?` reads an unsigned number: digits with an optional point, of which one side may be
empty, and an optional exponent. Nothing is rounded here.
-/

namespace ModalBounds.Decimal

/-- Continues the number `n` with the leading digits of a text; also returns how many there were,
and the rest. -/
def takeDigits (n count : Nat) : List Char → Nat × Nat × List Char
  | [] => (n, count, [])
  | c :: cs =>
    if c.isDigit then takeDigits (n * 10 + (c.toNat - '0'.toNat)) (count + 1) cs
    else (n, count, c :: cs)

/-- The exponent that ends a number; an empty text stands for zero. -/
def readExponent? : List Char → Option Int
  | [] => some 0
  | mark :: cs =>
    if mark = 'e' || mark = 'E' then
      let (negative, cs) := match cs with
        | '-' :: rest => (true, rest)
        | '+' :: rest => (false, rest)
        | _ => (false, cs)
      match takeDigits 0 0 cs with
      | (n, _ + 1, []) => some (if negative then -n else n)
      | _ => none
    else none

/-- An unsigned decimal number. -/
def read? (text : List Char) : Option Decimal :=
  let (whole, wholeCount, rest) := takeDigits 0 0 text
  let (digits, placeCount, rest) := match rest with
    | '.' :: rest => takeDigits whole 0 rest
    | _ => (whole, 0, rest)
  if wholeCount + placeCount = 0 then none
  else do
    let exponent ← readExponent? rest
    return ⟨false, digits, exponent - placeCount⟩

end ModalBounds.Decimal
