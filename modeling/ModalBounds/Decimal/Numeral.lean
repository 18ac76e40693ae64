import ModalBounds.Scalar
import ModalBounds.Decimal.Read

/-!
# Numbers as text

A `Numeral` type rounds decimals and writes its finite numbers as decimals. Infinite and undefined
numbers are words.
-/

namespace ModalBounds

/-- A number type with a decimal notation. -/
class Numeral (α : Type) where
  /-- The nearest number. -/
  ofDecimal : Decimal → α
  /-- A decimal that reads back to the number, for the finite ones. -/
  toDecimal? : TieRule → α → Option Decimal

variable {α : Type} [Scalar α] [Numeral α]

def numberText (x : α) : String :=
  match Numeral.toDecimal? NumberFormat.plain.tie x with
  | some d => NumberFormat.plain.write d
  | none =>
    if Scalar.isNaN x then "NaN"
    else if 0 < x then "inf"
    else "-inf"

/-- The number that an unsigned numeral denotes. -/
def numeral? (text : List Char) : Option α := (Decimal.read? text).map Numeral.ofDecimal

/-- The words for numbers that are not finite, in any letter case. -/
def specialNumber? (text : List Char) : Option α :=
  match String.ofList (text.map Char.toLower) with
  | "inf" => some Scalar.infinity
  | "infinity" => some Scalar.infinity
  | "nan" => some Scalar.nan
  | _ => none

/-- Why a text is no number. -/
inductive NumberError where
  | empty
  | invalid
deriving DecidableEq, Repr

def NumberError.message : NumberError → String
  | .empty => "cannot parse float from empty string"
  | .invalid => "invalid float literal"

/-- The number that a text denotes: a decimal number or a word, with an optional sign. -/
def readNumber (text : List Char) : Except NumberError α :=
  match text with
  | [] => .error .empty
  | c :: cs =>
    let unsigned := if c = '-' || c = '+' then cs else text
    match (specialNumber? unsigned).orElse (fun _ => numeral? unsigned) with
    | some x => .ok (if c = '-' then -x else x)
    | none => .error .invalid

end ModalBounds
