import ModalBounds.Syntax.Source

/-!
# Reading expressions

`Expr.read` turns the tokens of an expression into a tree. A chain of one operator becomes one node
with all its operands, and a minus before a constant becomes part of it.
-/

namespace ModalBounds

variable {α : Type}

/-- How many arguments a function takes. -/
inductive Arity where
  | exactly (n : Nat)
  | atLeast (n : Nat)
deriving DecidableEq, Repr

def Arity.accepts : Arity → Nat → Bool
  | exactly n, count => count == n
  | atLeast n, count => decide (n ≤ count)

/-- The functions that expressions can call. -/
def callSymbol? (name : String) : Option (Symbol α × Arity) :=
  match name with
  | "sin" => some (.sin, .exactly 1)
  | "cos" => some (.cos, .exactly 1)
  | "tan" => some (.tan, .exactly 1)
  | "tanh" => some (.tanh, .exactly 1)
  | "log" => some (.log, .exactly 1)
  | "exp" => some (.exp, .exactly 1)
  | "sqr" => some (.square, .exactly 1)
  | "square" => some (.square, .exactly 1)
  | "sqrt" => some (.sqrt, .exactly 1)
  | "abs" => some (.abs, .exactly 1)
  | "aq" => some (.analyticQuotient, .exactly 2)
  | "pow" => some (.power, .exactly 2)
  | "cube" => some (.cube, .exactly 1)
  | "cbrt" => some (.cbrt, .exactly 1)
  | "root" => some (.root, .exactly 2)
  | "logistic" => some (.logistic, .exactly 1)
  | "erf" => some (.erf, .exactly 1)
  | "min" => some (.min, .atLeast 2)
  | "max" => some (.max, .atLeast 2)
  | _ => none

namespace Expr

/-- Whether a node is a chain of an operator: it has that symbol and more than one operand. -/
def isChain [BEq α] (s : Symbol α) : Expr α → Bool
  | node t args => t == s && decide (2 ≤ args.length)

/-- Appends an operand to a chain of the same operator, or starts one. -/
def appendOperand [BEq α] (chain : Expr α) (s : Symbol α) (operand : Expr α) : Expr α :=
  if chain.isChain s then node s (chain.operands ++ [operand]) else binary s chain operand

/-- The negative; that of a constant is a constant. -/
def negated [Neg α] (e : Expr α) : Expr α :=
  match e.constantValue? with
  | some value => constant (-value)
  | none => unary .sub e

def operatorOf (t : Token Rule) : Symbol α :=
  match t.chars with
  | ['+'] => .add
  | ['-'] => .sub
  | ['*'] => .mul
  | _ => .div

/-- The call of a function, if there is one of that name and it takes so many arguments. -/
def applyFunction (source : List Char) (t : Token Rule) (name : String) (args : List (Expr α)) :
    Except (ModelError α) (Expr α) :=
  match callSymbol? name with
  | none => failAt source t (.unknownFunction name)
  | some (s, arity) =>
    if arity.accepts args.length then .ok (node s args)
    else failAt source t (.wrongArity name args.length)

variable [Scalar α] [Numeral α]

mutual

def ofToken (source : List Char) : Token Rule → Except (ModelError α) (Expr α)
  | .node rule start stop parts =>
    match rule, parts with
    | .expression, first :: rest => do chainOf source (← ofToken source first) rest
    | .term, first :: rest => do chainOf source (← ofToken source first) rest
    | .unary, [_, operand] => do return (← ofToken source operand).negated
    | .unary, [operand] => ofToken source operand
    | .power, [base] => ofToken source base
    | .power, [base, exponent] => do
      let base ← ofToken source base
      let exponent ← ofToken source exponent
      return binary .power base exponent
    | .primary, [inner] => ofToken source inner
    | .call, name :: args => do
      let args ← ofTokens source args
      applyFunction source (.node rule start stop parts) (String.ofList name.chars) args
    | .var, _ =>
      match nameOf? (.node rule start stop parts) with
      | some name => .ok (ofVariable name)
      | none => failAt source (.node rule start stop parts) (.incomplete rule)
    | .number, _ =>
      match numeral? (start.until stop) with
      | some value => .ok (constant value)
      | none => failAt source (.node rule start stop parts) (.incomplete rule)
    | _, _ => failAt source (.node rule start stop parts) (.incomplete rule)

/-- Continues a chain of operators of the same rank, each followed by its operand. -/
def chainOf (source : List Char) (chain : Expr α) :
    List (Token Rule) → Except (ModelError α) (Expr α)
  | operator :: operand :: rest => do
    let operand ← ofToken source operand
    chainOf source (chain.appendOperand (operatorOf operator) operand) rest
  | _ => .ok chain

def ofTokens (source : List Char) : List (Token Rule) → Except (ModelError α) (List (Expr α))
  | [] => .ok []
  | t :: rest => do
    let e ← ofToken source t
    let es ← ofTokens source rest
    return e :: es

end

/-- Reads an expression such as `2.5 * x + sin(y) ^ 2`. -/
def read (limits : Limits) (source : String) : Except (ModelError α) (Expr α) := do
  limits.checkSource source
  let chars := source.toList
  let file ← parseRule .expressionFile chars
  match file.parts.find? (·.rule == .expression) with
  | none => failAt chars file (.incomplete .expression)
  | some t =>
    let e ← ofToken chars t
    limits.checkTree e
    return e

end Expr

end ModalBounds
