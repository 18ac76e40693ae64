import ModalBounds.Expr.Basic
import ModalBounds.Scalar

/-!
# Constructors that fold constants

Derivatives are built with these: a sum drops zeros and adds its constants up, a product drops ones,
multiplies its constants and vanishes with a zero, and the others simplify where an operand is a
constant that allows it. Each means what the plain symbol means.
-/

namespace ModalBounds.Expr

variable {α : Type} [Scalar α]

def constants (args : List (Expr α)) : List α := args.filterMap constantValue?

def nonConstants (args : List (Expr α)) : List (Expr α) :=
  args.filter fun a => a.constantValue?.isNone

def isConstant (a : Expr α) (value : α) : Bool :=
  match a.constantValue? with
  | some x => x == value
  | none => false

/-- A sum; its constants are added up behind the other terms. -/
def foldSum (terms : List (Expr α)) : Expr α :=
  let total := (constants terms).foldl (· + ·) 0
  let rest := nonConstants terms ++ (if total != 0 then [constant total] else [])
  match rest with
  | [] => constant 0
  | [a] => a
  | rest => node .add rest

/-- The negative; a negation is taken back. -/
def foldNeg (a : Expr α) : Expr α :=
  match a.constantValue? with
  | some value => constant (-value)
  | none =>
    match a with
    | node .sub [b] => b
    | a => unary .sub a

def foldDifference (a b : Expr α) : Expr α :=
  match a.constantValue?, b.constantValue? with
  | some x, some y => constant (x - y)
  | some x, none => if x == 0 then foldNeg b else binary .sub a b
  | none, some y => if y == 0 then a else binary .sub a b
  | none, none => binary .sub a b

/-- A product of no constants. -/
def plainProduct (factors : List (Expr α)) : Expr α :=
  match factors with
  | [a] => a
  | factors => node .mul factors

/-- A product; its constants are multiplied in front of the other factors, and a sign alone is taken
out. -/
def foldProduct (factors : List (Expr α)) : Expr α :=
  let scale := (constants factors).foldl (· * ·) 1
  let rest := nonConstants factors
  if scale == 0 then constant 0
  else if rest.isEmpty then constant scale
  else if scale == -1 then foldNeg (plainProduct rest)
  else if scale != 1 then node .mul (constant scale :: rest)
  else plainProduct rest

def foldQuotient (a b : Expr α) : Expr α :=
  if a.isConstant 0 then constant 0
  else if b.isConstant 1 then a
  else
    match a.constantValue?, b.constantValue? with
    | some x, some y => if y != 0 then constant (x / y) else binary .div a b
    | _, _ => binary .div a b

def foldSquare (a : Expr α) : Expr α :=
  match a.constantValue? with
  | some value => constant (value * value)
  | none => unary .square a

def foldAnalyticQuotient (a b : Expr α) : Expr α :=
  if a.isConstant 0 then constant 0 else binary .analyticQuotient a b

end ModalBounds.Expr
