import ModalBounds.Json.Basic

/-!
# Reading JSON

`Json.read?` reads a JSON text. Numbers keep their exact value, and a lone half of a surrogate pair
is refused.
-/

namespace ModalBounds.Json

def isSpace (c : Char) : Bool := c == ' ' || c == '\t' || c == '\r' || c == '\n'

def skipSpace (text : List Char) : List Char := text.dropWhile isSpace

/-! ### Strings -/

def hexValue? (c : Char) : Option Nat :=
  if c.isDigit then some (c.toNat - 48)
  else if decide ('a' ≤ c) && decide (c ≤ 'f') then some (c.toNat - 87)
  else if decide ('A' ≤ c) && decide (c ≤ 'F') then some (c.toNat - 55)
  else none

def codeUnit? (a b c d : Char) : Option Nat := do
  return (((← hexValue? a) * 16 + (← hexValue? b)) * 16 + (← hexValue? c)) * 16 + (← hexValue? d)

/-- The character of an escape with one letter. -/
def escaped? (c : Char) : Option Char :=
  match c with
  | '"' => some '"'
  | '\\' => some '\\'
  | '/' => some '/'
  | 'b' => some (Char.ofNat 8)
  | 'f' => some (Char.ofNat 12)
  | 'n' => some '\n'
  | 'r' => some '\r'
  | 't' => some '\t'
  | _ => none

/-- Whether a code unit is the second half of a surrogate pair. -/
def isLowHalf (n : Nat) : Bool := decide (0xDC00 ≤ n) && decide (n < 0xE000)

def isHighHalf (n : Nat) : Bool := decide (0xD800 ≤ n) && decide (n < 0xDC00)

/-- The rest of a string literal after its opening quote, and what follows it. -/
def stringRest? : List Char → Option (List Char × List Char)
  | '"' :: rest => some ([], rest)
  | '\\' :: 'u' :: a :: b :: c :: d :: '\\' :: 'u' :: a' :: b' :: c' :: d' :: rest => do
    let high ← codeUnit? a b c d
    let low ← codeUnit? a' b' c' d'
    if isHighHalf high && isLowHalf low then
      let (s, after) ← stringRest? rest
      return (Char.ofNat (0x10000 + (high - 0xD800) * 0x400 + (low - 0xDC00)) :: s, after)
    else if isHighHalf high || isLowHalf high then none
    else
      let (s, after) ← stringRest? ('\\' :: 'u' :: a' :: b' :: c' :: d' :: rest)
      return (Char.ofNat high :: s, after)
  | '\\' :: 'u' :: a :: b :: c :: d :: rest => do
    let unit ← codeUnit? a b c d
    if isHighHalf unit || isLowHalf unit then none
    else
      let (s, after) ← stringRest? rest
      return (Char.ofNat unit :: s, after)
  | '\\' :: c :: rest => do
    let c ← escaped? c
    let (s, after) ← stringRest? rest
    return (c :: s, after)
  | c :: rest =>
    if c.toNat < 32 || c = '\\' then none
    else do
      let (s, after) ← stringRest? rest
      return (c :: s, after)
  | [] => none

/-! ### Numbers -/

/-- Whether a text is an unsigned number literal: no superfluous zero in front, and digits on both
sides of a point. -/
def isNumberLiteral (text : List Char) : Bool :=
  let whole := text.takeWhile Char.isDigit
  let startsWell := match whole with
    | [] => false
    | '0' :: _ :: _ => false
    | _ => true
  let pointWell := match text.dropWhile Char.isDigit with
    | '.' :: c :: _ => c.isDigit
    | '.' :: [] => false
    | _ => true
  startsWell && pointWell

/-- A number literal. A literal of digits only is an integer, but for minus zero. -/
def number? (text : List Char) : Option Json := do
  let (negative, unsigned) := match text with
    | '-' :: rest => (true, rest)
    | _ => (false, text)
  if !isNumberLiteral unsigned then none
  else
    let d ← Decimal.read? unsigned
    if unsigned.all Char.isDigit && !(negative && d.digits == 0) then
      return integer (if negative then -d.digits else d.digits)
    else return decimal { d with negative := negative }

def isNumberChar (c : Char) : Bool :=
  c.isDigit || c == '-' || c == '+' || c == '.' || c == 'e' || c == 'E'

/-! ### Values -/

/-- The text after a given beginning. -/
def after? (start text : List Char) : Option (List Char) :=
  match start, text with
  | [], text => some text
  | c :: cs, d :: ds => if c = d then after? cs ds else none
  | _ :: _, [] => none

mutual

/-- A value at the beginning of a text, and what follows it. Every step takes a character, so the
length of the text is enough `fuel`. -/
def value? : (fuel : Nat) → List Char → Option (Json × List Char)
  | 0, _ => none
  | fuel + 1, text =>
    match skipSpace text with
    | '"' :: rest => do
      let (s, after) ← stringRest? rest
      return (string (String.ofList s), after)
    | '[' :: rest =>
      match skipSpace rest with
      | ']' :: after => some (array [], after)
      | rest => do
        let (items, after) ← items? fuel rest
        return (array items, after)
    | '\x7b' :: rest =>
      match skipSpace rest with
      | '\x7d' :: after => some (object [], after)
      | rest => do
        let (fields, after) ← fields? fuel rest
        return (object fields, after)
    | 'n' :: rest => do return (null, ← after? ['u', 'l', 'l'] rest)
    | 't' :: rest => do return (bool true, ← after? ['r', 'u', 'e'] rest)
    | 'f' :: rest => do return (bool false, ← after? ['a', 'l', 's', 'e'] rest)
    | text => do
      let value ← number? (text.takeWhile isNumberChar)
      return (value, text.dropWhile isNumberChar)

def items? : (fuel : Nat) → List Char → Option (List Json × List Char)
  | 0, _ => none
  | fuel + 1, text => do
    let (a, rest) ← value? fuel text
    match skipSpace rest with
    | ',' :: rest =>
      let (items, after) ← items? fuel rest
      return (a :: items, after)
    | ']' :: after => return ([a], after)
    | _ => none

def fields? : (fuel : Nat) → List Char → Option (List (String × Json) × List Char)
  | 0, _ => none
  | fuel + 1, text => do
    let (name, rest) ← match skipSpace text with
      | '"' :: rest => stringRest? rest
      | _ => none
    let rest ← after? [':'] (skipSpace rest)
    let (a, rest) ← value? fuel rest
    match skipSpace rest with
    | ',' :: rest =>
      let (fields, after) ← fields? fuel rest
      return ((String.ofList name, a) :: fields, after)
    | '\x7d' :: after => return ([(String.ofList name, a)], after)
    | _ => none

end

/-- The value of a JSON text. -/
def read? (text : String) : Option Json := do
  let chars := text.toList
  let (value, rest) ← value? (2 * chars.length + 2) chars
  if (skipSpace rest).isEmpty then return value else none

end ModalBounds.Json
