import ModalBounds.Error

/-!
# Programs

An expression is compiled into the list of its nodes in pre-order, each with an operation and the
number of operands that follow it. `Program.compile` fails at the first node that has no operation,
or whose operation does not take so many operands.
-/

namespace ModalBounds

/-- The operations that can be evaluated. -/
inductive Opcode where
  | var
  | const
  | add
  | sub
  | mul
  | div
  | sin
  | cos
  | tan
  | tanh
  | log
  | exp
  | square
  | sqrt
  | power
  | abs
  | analyticQuotient
  | subFunction
deriving DecidableEq, Repr

namespace Opcode

/-- The operation of a symbol, if it can be evaluated. -/
def ofSymbol? {α : Type} : Symbol α → Option Opcode
  | .var _ _ => some var
  | .const _ => some const
  | .add => some add
  | .sub => some sub
  | .mul => some mul
  | .div => some div
  | .sin => some sin
  | .cos => some cos
  | .tan => some tan
  | .tanh => some tanh
  | .log => some log
  | .exp => some exp
  | .square => some square
  | .sqrt => some sqrt
  | .power => some power
  | .abs => some abs
  | .analyticQuotient => some analyticQuotient
  | .subFunction _ => some subFunction
  | .cube => none
  | .cbrt => none
  | .root => none
  | .logistic => none
  | .erf => none
  | .min => none
  | .max => none

def name : Opcode → String
  | var => "Variable"
  | const => "Constant"
  | add => "Add"
  | sub => "Sub"
  | mul => "Mul"
  | div => "Div"
  | sin => "Sin"
  | cos => "Cos"
  | tan => "Tan"
  | tanh => "Tanh"
  | log => "Log"
  | exp => "Exp"
  | square => "Square"
  | sqrt => "SquareRoot"
  | power => "Power"
  | abs => "Absolute"
  | analyticQuotient => "AnalyticQuotient"
  | subFunction => "SubFunction"

def accepts : Opcode → Nat → Bool
  | var, count => count == 0
  | const, count => count == 0
  | add, count => decide (1 ≤ count)
  | sub, count => decide (1 ≤ count)
  | mul, count => decide (1 ≤ count)
  | div, count => decide (1 ≤ count)
  | power, count => count == 2
  | analyticQuotient, count => count == 2
  | _, count => count == 1

end Opcode

def Expr.isSupported {α : Type} (e : Expr α) : Bool :=
  (e.postorder 0).all fun (_, a) => (Opcode.ofSymbol? a.symbol).isSome

/-- An operation at a node, with the number of its operands. -/
structure Instruction (α : Type) where
  opcode : Opcode
  /-- The node with everything below it; the name and the value of a leaf are looked up there. -/
  expr : Expr α
  /-- The number of the node. -/
  node : Nat
  argCount : Nat

/-- The operations of an expression in pre-order. -/
abbrev Program (α : Type) := List (Instruction α)

namespace Program

variable {α : Type}

/-- The instruction of an expression's root, which is the node `n` of a tree. -/
def instruction (e : Expr α) (n : Nat) : Except (ModelError α) (Instruction α) :=
  match Opcode.ofSymbol? e.symbol with
  | none => .error (.unsupportedSymbol e.symbol n)
  | some opcode =>
    if opcode.accepts e.operands.length then .ok ⟨opcode, e, n, e.operands.length⟩
    else .error (.malformedTree n (.cannotTake e.symbol.name e.operands.length))

/-- The instructions of some nodes, numbered from `first`. -/
def instructions (first : Nat) : List (Expr α) → Except (ModelError α) (Program α)
  | [] => .ok []
  | e :: rest => do
    let i ← instruction e first
    let code ← instructions (first + 1) rest
    return i :: code

def compile (e : Expr α) : Except (ModelError α) (Program α) := instructions 0 e.preorder

/-- The first variable of a program that is not known. -/
def missing? (known : String → Bool) : Program α → Option String
  | [] => none
  | i :: code =>
    match i.expr.variableName? with
    | some name => if known name then missing? known code else some name
    | none => missing? known code

end Program

end ModalBounds
