import ModalBounds.Error
import ModalBounds.Expr.Fold

/-!
# Partial derivatives

`Expr.derivative` differentiates an expression with respect to a variable. At each node it first
checks that the symbol has a rule for its operands, then differentiates the operands, and then
applies the rule, `derivativeRule`. A subexpression without the variable is constant, whatever is in
it.
-/

namespace ModalBounds.Expr

variable {α : Type} [Scalar α]

omit [Scalar α] in
def expectOperands (node : Nat) (s : Symbol α) (expected : Nat) (args : List (Expr α)) :
    Except (ModelError α) Unit :=
  if args.length = expected then .ok ()
  else .error (.malformedTree node (.expects s.name expected args.length))

def expectIntegerExponent (args : List (Expr α)) : Except (ModelError α) Unit :=
  match args with
  | [_, e] =>
    if (e.constantValue?.bind Scalar.integer?).isSome then .ok ()
    else .error (.unsupportedExponent (.term e))
  | _ => .ok ()

/-- Fails unless there is a rule for the derivative of a node. -/
def checkDerivable (node : Nat) (s : Symbol α) (args : List (Expr α)) :
    Except (ModelError α) Unit :=
  match s with
  | .var _ _ => .ok ()
  | .const _ => .ok ()
  | .add => .ok ()
  | .mul => .ok ()
  | .sub => if args.isEmpty then .error (.malformedTree node (.withoutOperands s.name)) else .ok ()
  | .div => if args.isEmpty then .error (.malformedTree node (.withoutOperands s.name)) else .ok ()
  | .sin => expectOperands node s 1 args
  | .cos => expectOperands node s 1 args
  | .tan => expectOperands node s 1 args
  | .tanh => expectOperands node s 1 args
  | .log => expectOperands node s 1 args
  | .exp => expectOperands node s 1 args
  | .square => expectOperands node s 1 args
  | .sqrt => expectOperands node s 1 args
  | .abs => expectOperands node s 1 args
  | .subFunction _ => expectOperands node s 1 args
  | .analyticQuotient => expectOperands node s 2 args
  | .power => do
    expectOperands node s 2 args
    expectIntegerExponent args
  | .cube => .error (.unsupportedSymbol s node)
  | .cbrt => .error (.unsupportedSymbol s node)
  | .root => .error (.unsupportedSymbol s node)
  | .logistic => .error (.unsupportedSymbol s node)
  | .erf => .error (.unsupportedSymbol s node)
  | .min => .error (.unsupportedSymbol s node)
  | .max => .error (.unsupportedSymbol s node)

/-- The products of some factors in which one after the other is replaced by its derivative. -/
def productTerms (before : List (Expr α)) : (factors derivatives : List (Expr α)) → List (Expr α)
  | f :: factors, d :: derivatives =>
    foldProduct (before ++ d :: factors) :: productTerms (before ++ [f]) factors derivatives
  | _, _ => []

def productRule (factors derivatives : List (Expr α)) : Expr α :=
  foldSum (productTerms [] factors derivatives)

/-- The quotient rule, for a numerator and its derivative, and a denominator and its derivative. -/
def quotientRule (f df g dg : Expr α) : Expr α :=
  foldQuotient (foldDifference (foldProduct [df, g]) (foldProduct [f, dg])) (foldSquare g)

/-- The derivative of a power with the constant exponent `n`. -/
def powerRule (f df : Expr α) (n : α) : Expr α :=
  if n == 0 then constant 0
  else
    let outer :=
      if n == 1 then constant 1
      else if n == ((2 : Nat) : α) then foldProduct [constant ((2 : Nat) : α), f]
      else foldProduct [constant n, binary .power f (constant (n - 1))]
    foldProduct [outer, df]

/-- The derivative of a node with respect to `x`, from its operands and their derivatives. -/
def derivativeRule (x : String) (s : Symbol α) (args derivatives : List (Expr α)) : Expr α :=
  match s, args, derivatives with
  | .var name weight, _, _ => constant (if name = x then weight else 0)
  | .const _, _, _ => constant 0
  | .add, _, ds => foldSum ds
  | .sub, _, [d] => foldNeg d
  | .sub, _, d :: ds => foldDifference d (foldSum ds)
  | .mul, fs, ds => productRule fs ds
  | .div, [g], [dg] => foldNeg (foldQuotient dg (foldSquare g))
  | .div, [f, g], [df, dg] => quotientRule f df g dg
  | .div, f :: gs, df :: dgs =>
    quotientRule f df (node .mul gs) (if mentionsAny x gs then productRule gs dgs else constant 0)
  | .sin, [f], [df] => foldProduct [unary .cos f, df]
  | .cos, [f], [df] => foldNeg (foldProduct [unary .sin f, df])
  | .tan, [f], [df] => foldQuotient df (foldSquare (unary .cos f))
  | .tanh, [f], [df] =>
    foldProduct [df, foldDifference (constant 1) (foldSquare (unary .tanh f))]
  | .exp, [f], [df] => foldProduct [unary .exp f, df]
  | .log, [f], [df] => foldQuotient df f
  | .square, [f], [df] => foldProduct [constant ((2 : Nat) : α), f, df]
  | .sqrt, [f], [df] =>
    foldQuotient df (foldProduct [constant ((2 : Nat) : α), unary .sqrt f])
  | .abs, [f], [df] => foldProduct [df, foldQuotient f (unary .abs f)]
  | .power, [f, e], df :: _ =>
    match e.constantValue? with
    | some n => powerRule f df n
    | none => constant 0
  | .analyticQuotient, [a, b], [da, db] =>
    let cross := foldProduct [a, b, db]
    foldDifference (foldAnalyticQuotient da b)
      (foldQuotient (foldAnalyticQuotient cross b) (foldSum [constant 1, foldSquare b]))
  | .subFunction _, _, [df] => df
  | _, _, _ => constant 0

/-- Whether the derivative of a symbol depends on the derivatives of its operands. -/
def isLeafSymbol : Symbol α → Bool
  | .var _ _ => true
  | .const _ => true
  | _ => false

mutual

/-- The derivative of an expression that is the node `first` of a tree. -/
def derivativeAt (x : String) (first : Nat) : Expr α → Except (ModelError α) (Expr α)
  | node s args =>
    if !(node s args).mentions x then .ok (constant 0)
    else if isLeafSymbol s then .ok (derivativeRule x s args [])
    else do
      checkDerivable first s args
      let derivatives ← derivativesAt x (first + 1) args
      return derivativeRule x s args derivatives

def derivativesAt (x : String) (first : Nat) :
    List (Expr α) → Except (ModelError α) (List (Expr α))
  | [] => .ok []
  | a :: rest => do
    let d ← derivativeAt x first a
    let ds ← derivativesAt x (first + a.size) rest
    return d :: ds

end

/-- The partial derivative with respect to the variable `x`. -/
def derivative (x : String) (e : Expr α) : Except (ModelError α) (Expr α) := derivativeAt x 0 e

omit [Scalar α] in
/-- Differentiates an expression `order` times. -/
def nthDerivativeM {m : Type → Type} [Monad m] (derivative : Expr α → m (Expr α)) :
    (order : Nat) → Expr α → m (Expr α)
  | 0, e => return e
  | order + 1, e => do
    let d ← derivative e
    nthDerivativeM derivative order d

def nthDerivative (x : String) (order : Nat) (e : Expr α) : Except (ModelError α) (Expr α) :=
  nthDerivativeM (derivative x) order e

end ModalBounds.Expr
