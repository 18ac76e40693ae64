import ModalBounds.Interval.Modal
import ModalBounds.Expr.Print
import ModalBounds.Syntax.Rule

/-!
# What can go wrong

A `ModelError` is the cause of a failure, and `ModelError.message` its wording. A number that is not
defined is no failure: it is an interval with undefined bounds. Every step of a bound computation
goes down a tree level by level, so of the `Limits` the depth bounds how deep it nests, and the
length how long it takes.
-/

namespace ModalBounds

def boundsText {α : Type} [Scalar α] [Numeral α] (lower upper : α) : String :=
  "[" ++ numberText lower ++ " .. " ++ numberText upper ++ "]"

def ModalInterval.text {α : Type} [Scalar α] [Numeral α] (x : ModalInterval α) : String :=
  boundsText x.lower x.upper

/-- A stretch of a source: the bytes before its start and its end, and the line and the column of
its start, counted from one. -/
structure Span where
  start : Nat
  stop : Nat
  line : Nat
  column : Nat
deriving DecidableEq, Repr, Inhabited

/-- Why a source is no expression or no constraint. -/
inductive SyntaxError (α : Type) where
  /-- None of these rules matches. -/
  | expected (rules : List Rule)
  | unknownFunction (name : String)
  | wrongArity (function : String) (count : Nat)
  /-- A derivative's two orders differ, or one of them is missing. -/
  | ordersDiffer
  /-- The lower bound of an interval exceeds the upper one. -/
  | reversed (lower upper : α)
  /-- A part of a rule is missing. -/
  | incomplete (rule : Rule)
deriving Repr

/-- How a node fails to fit its symbol. -/
inductive Malformation where
  /-- The symbol cannot be evaluated with so many operands. -/
  | cannotTake (symbol : String) (count : Nat)
  /-- The symbol cannot be differentiated with so many operands. -/
  | expects (symbol : String) (expected found : Nat)
  | withoutOperands (symbol : String)
  | endedEarly
  | notVariable
deriving DecidableEq, Repr

/-- What stands in the place of an integer exponent. -/
inductive Exponent (α : Type) where
  | value (x : α)
  | range (x : ModalInterval α)
  | term (e : Expr α)

/-- The quantities that are limited. -/
inductive Limit where
  | treeDepth
  | treeLength
  | sourceBytes
deriving DecidableEq, Repr

inductive ModelError (α : Type) where
  | unsupportedSymbol (symbol : Symbol α) (node : Nat)
  /-- Only integer exponents of 32 bits are supported. -/
  | unsupportedExponent (exponent : Exponent α)
  | missingRange (name : String)
  | invalidInterval (lower upper : α)
  | malformedTree (node : Nat) (cause : Malformation)
  | parse (cause : SyntaxError α) (span : Span)
  | limitExceeded (limit : Limit) (allowed actual : Nat)

/-! ### Wording -/

/-- A list of alternatives: `a`, `a or b`, `a, b, or c`. -/
def alternatives : List String → String
  | [] => ""
  | [a] => a
  | [a, b] => a ++ " or " ++ b
  | names => ", ".intercalate names.dropLast ++ ", or " ++ names.getLastD ""

namespace Limit

def name : Limit → String
  | treeDepth => "max_tree_depth"
  | treeLength => "max_tree_length"
  | sourceBytes => "max_expression_bytes"

/-- An amount of the limited quantity. -/
def amount (limit : Limit) (n : Nat) : String :=
  match limit with
  | sourceBytes => toString n ++ " bytes"
  | _ => toString n

def suggestion : Limit → String
  | treeDepth => "Simplify nested expressions to reduce depth"
  | treeLength => "Reduce the number of nodes in the model"
  | sourceBytes => "Split the input into smaller expressions"

end Limit

/-- How nodes are called in messages. -/
def nodeText (node : Nat) : String := "node_" ++ toString node

namespace Malformation

def message : Malformation → String
  | cannotTake symbol count => symbol ++ " cannot take " ++ toString count ++ " operand(s)"
  | expects symbol expected found =>
    symbol ++ " expects " ++ toString expected ++ (if expected = 1 then " operand" else " operands")
      ++ ", found " ++ toString found
  | withoutOperands symbol => symbol ++ " without operands"
  | endedEarly => "Instruction stream ended early"
  | notVariable => "Expected a variable"

end Malformation

variable {α : Type} [Scalar α] [Numeral α]

/-- Why two numbers are no interval. -/
def reversedMessage (lower upper : α) : String :=
  "Invalid interval " ++ boundsText lower upper ++ ": lower bound exceeds upper bound"

def SyntaxError.message : SyntaxError α → String
  | expected rules => "expected " ++ alternatives (rules.map Rule.name)
  | unknownFunction name => "Unknown function '" ++ name ++ "'"
  | wrongArity function count =>
    "Function '" ++ function ++ "' does not take " ++ toString count ++ " argument(s)"
  | ordersDiffer => "Derivative order must appear on both ∂f and ∂x"
  | reversed lower upper => reversedMessage lower upper
  | incomplete rule => "Empty " ++ rule.name

def Exponent.text : Exponent α → String
  | value x => numberText x
  | range x => x.text
  | term e => e.text

namespace ModelError

def message : ModelError α → String
  | unsupportedSymbol symbol node =>
    "Unsupported symbol '" ++ symbol.name ++ "' at " ++ nodeText node
  | unsupportedExponent exponent =>
    "Unsupported exponent " ++ exponent.text ++ ": only integer exponents are supported"
  | missingRange name => "No range given for variable '" ++ name ++ "'"
  | invalidInterval lower upper => reversedMessage lower upper
  | malformedTree node cause => "Malformed tree at " ++ nodeText node ++ ": " ++ cause.message
  | parse cause span =>
    "Parse error: " ++ cause.message ++ " at " ++ toString span.line ++ ":" ++ toString span.column
  | limitExceeded limit allowed actual =>
    "Resource limit exceeded: " ++ limit.name ++ " (limit: " ++ limit.amount allowed
      ++ ", actual: " ++ limit.amount actual ++ "). " ++ limit.suggestion

end ModelError

/-! ### Limits -/

/-- The largest trees and sources that are accepted. -/
structure Limits where
  treeDepth : Nat := 200
  treeLength : Nat := 10000
  sourceBytes : Nat := 1048576
deriving DecidableEq, Repr

namespace Limits

variable {α : Type}

/-- Fails where a quantity is greater than allowed. -/
def check (limit : Limit) (allowed actual : Nat) : Except (ModelError α) Unit :=
  if allowed < actual then .error (.limitExceeded limit allowed actual) else .ok ()

/-- Rejects trees that are too deep or too long. -/
def checkTree (limits : Limits) (e : Expr α) : Except (ModelError α) Unit := do
  check .treeDepth limits.treeDepth e.depth
  check .treeLength limits.treeLength e.size

/-- Rejects sources that are too long. -/
def checkSource (limits : Limits) (source : String) : Except (ModelError α) Unit :=
  check .sourceBytes limits.sourceBytes source.utf8ByteSize

end Limits

end ModalBounds
