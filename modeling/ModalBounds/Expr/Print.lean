import ModalBounds.Expr.Basic
import ModalBounds.Decimal.Numeral

/-!
# Expressions as text

Operators are written between their operands, in parentheses; everything else is written as a call.
A name that is no identifier is quoted.
-/

namespace ModalBounds

def isIdentifierStart (c : Char) : Bool := c.isAlpha || c == '_'

def isIdentifierChar (c : Char) : Bool := c.isAlphanum || c == '_'

/-- Whether a name is an identifier of ASCII letters, digits and underscores. -/
def isIdentifier (name : String) : Bool :=
  match name.toList with
  | [] => false
  | c :: cs => isIdentifierStart c && cs.all isIdentifierChar

/-- A variable's name, in quotes unless it is an identifier. -/
def nameText (name : String) : String := if isIdentifier name then name else "'" ++ name ++ "'"

variable {α : Type} [Scalar α] [Numeral α]

namespace Symbol

omit [Scalar α] [Numeral α] in
/-- The operator of a symbol that is written between its operands. -/
def operator? : Symbol α → Option String
  | add => some " + "
  | sub => some " - "
  | mul => some " * "
  | div => some " / "
  | power => some " ^ "
  | _ => none

omit [Scalar α] [Numeral α] in
def callName : Symbol α → String
  | sin => "sin"
  | cos => "cos"
  | tan => "tan"
  | tanh => "tanh"
  | log => "log"
  | exp => "exp"
  | square => "sqr"
  | sqrt => "sqrt"
  | abs => "abs"
  | analyticQuotient => "aq"
  | subFunction name => name
  | cube => "cube"
  | cbrt => "cbrt"
  | root => "root"
  | logistic => "logistic"
  | erf => "erf"
  | min => "min"
  | max => "max"
  | _ => "?"

/-- The text of a node whose operands have the given texts. A single operand of a difference is
negated and that of a quotient inverted. -/
def textWith (s : Symbol α) (args : List String) : String :=
  match s, args with
  | var name weight, _ =>
    if weight == 1 then nameText name
    else "(" ++ numberText weight ++ " * " ++ nameText name ++ ")"
  | const value, _ =>
    if value < 0 then "(" ++ numberText value ++ ")" else numberText value
  | sub, [a] => "(-" ++ a ++ ")"
  | div, [a] => "(1 / " ++ a ++ ")"
  | s, args =>
    match s.operator? with
    | some operator => "(" ++ operator.intercalate args ++ ")"
    | none => s.callName ++ "(" ++ ", ".intercalate args ++ ")"

end Symbol

namespace Expr

mutual

def text : Expr α → String
  | node s args => s.textWith (texts args)

def texts : List (Expr α) → List String
  | [] => []
  | a :: rest => text a :: texts rest

end

end Expr

end ModalBounds
