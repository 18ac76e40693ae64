import ModalBounds.Decimal.Read

/-!
# JSON values

Numbers are exact: an integer literal is an integer, and any other literal a decimal. The fields of
an object keep their order.
-/

namespace ModalBounds

inductive Json where
  | null
  | bool (b : Bool)
  | integer (n : Int)
  | decimal (d : Decimal)
  | string (s : String)
  | array (items : List Json)
  | object (fields : List (String × Json))
deriving Inhabited

namespace Json

/-- The value of a field; of two with the same name the last one counts. -/
def field? (fields : List (String × Json)) (name : String) : Option Json :=
  (fields.reverse.find? (·.1 == name)).map (·.2)

/-! ### Writing -/

def hexDigit (n : Nat) : Char := if n < 10 then Char.ofNat (48 + n) else Char.ofNat (87 + n)

/-- A character in a string literal. Quotes, backslashes and control characters are escaped. -/
def escapeChar (c : Char) : List Char :=
  if c = '"' then ['\\', '"']
  else if c = '\\' then ['\\', '\\']
  else if c = '\n' then ['\\', 'n']
  else if c = '\r' then ['\\', 'r']
  else if c = '\t' then ['\\', 't']
  else if c.toNat = 8 then ['\\', 'b']
  else if c.toNat = 12 then ['\\', 'f']
  else if c.toNat < 32 then
    ['\\', 'u', '0', '0', hexDigit (c.toNat / 16), hexDigit (c.toNat % 16)]
  else [c]

def stringText (s : String) : String :=
  String.ofList ('"' :: (s.toList.flatMap escapeChar ++ ['"']))

def decimalText (d : Decimal) : String := NumberFormat.json.write d

/-- The text of a value that has no parts. -/
def scalarText : Json → String
  | null => "null"
  | bool b => if b then "true" else "false"
  | integer n => toString n
  | decimal d => decimalText d
  | string s => stringText s
  | array _ => "[]"
  | object _ => "\x7b\x7d"

mutual

/-- The text of a value without blanks. -/
def compact : Json → String
  | array items => "[" ++ ",".intercalate (compactItems items) ++ "]"
  | object fields => "\x7b" ++ ",".intercalate (compactFields fields) ++ "\x7d"
  | value => scalarText value

def compactItems : List Json → List String
  | [] => []
  | a :: rest => compact a :: compactItems rest

def compactFields : List (String × Json) → List String
  | [] => []
  | (name, a) :: rest => (stringText name ++ ":" ++ compact a) :: compactFields rest

end

/-- The beginning of a line that is indented by so many steps. -/
def indent (depth : Nat) : String := "\n" ++ String.ofList (List.replicate (2 * depth) ' ')

/-- Parts on lines of their own between two brackets, of which the second stands at `depth`. -/
def block (opening closing : String) (depth : Nat) (parts : List String) : String :=
  if parts.isEmpty then opening ++ closing
  else
    opening ++ indent (depth + 1) ++ ("," ++ indent (depth + 1)).intercalate parts ++ indent depth
      ++ closing

mutual

/-- The text of a value with each part on a line of its own, indented by two spaces more than what
is around it. -/
def prettyAt (depth : Nat) : Json → String
  | array items => block "[" "]" depth (prettyItems (depth + 1) items)
  | object fields => block "\x7b" "\x7d" depth (prettyFields (depth + 1) fields)
  | value => scalarText value

def prettyItems (depth : Nat) : List Json → List String
  | [] => []
  | a :: rest => prettyAt depth a :: prettyItems depth rest

def prettyFields (depth : Nat) : List (String × Json) → List String
  | [] => []
  | (name, a) :: rest =>
    (stringText name ++ ": " ++ prettyAt depth a) :: prettyFields depth rest

end

def pretty (value : Json) : String := prettyAt 0 value

end Json

end ModalBounds
