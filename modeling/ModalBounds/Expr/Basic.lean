/-!
# Symbolic expressions

An expression is a symbol with any number of operands. Its nodes are numbered in pre-order: a node
comes before its operands, and an operand with everything below it before the next one. So the
number of a node follows from the sizes of the subexpressions before it, and no node stores one.
-/

namespace ModalBounds

/-- What a node of an expression stands for. -/
inductive Symbol (α : Type) where
  /-- An input, multiplied by a weight. -/
  | var (name : String) (weight : α)
  | const (value : α)
  | add
  | sub
  | mul
  | div
  | sin
  | cos
  | tan
  | tanh
  | log
  | exp
  | square
  | sqrt
  | power
  | abs
  /-- The quotient of the first operand and the square root of one plus the second squared. -/
  | analyticQuotient
  /-- A named wrapper that means its operand. -/
  | subFunction (name : String)
  | cube
  | cbrt
  | root
  | logistic
  | erf
  | min
  | max
deriving BEq, Repr

namespace Symbol

variable {α : Type}

/-- The name that messages use. -/
def name : Symbol α → String
  | var _ _ => "Variable"
  | const _ => "Constant"
  | add => "Addition"
  | sub => "Subtraction"
  | mul => "Multiplication"
  | div => "Division"
  | sin => "Sine"
  | cos => "Cosine"
  | tan => "Tangent"
  | tanh => "HyperbolicTangent"
  | log => "Logarithm"
  | exp => "Exponential"
  | square => "Square"
  | sqrt => "SquareRoot"
  | power => "Power"
  | abs => "Absolute"
  | analyticQuotient => "AnalyticQuotient"
  | subFunction _ => "SubFunction"
  | cube => "Cube"
  | cbrt => "CubeRoot"
  | root => "Root"
  | logistic => "Logistic"
  | erf => "Erf"
  | min => "Min"
  | max => "Max"

end Symbol

/-- A symbol applied to operands. Nothing is said here about how many a symbol takes. -/
inductive Expr (α : Type) where
  | node (symbol : Symbol α) (operands : List (Expr α))

namespace Expr

variable {α : Type}

instance : Inhabited (Expr α) := ⟨.node .add []⟩

def symbol : Expr α → Symbol α
  | node s _ => s

def operands : Expr α → List (Expr α)
  | node _ args => args

/-! ### Building expressions -/

def constant (value : α) : Expr α := node (.const value) []

def weighted (name : String) (weight : α) : Expr α := node (.var name weight) []

def ofVariable [One α] (name : String) : Expr α := weighted name 1

def unary (s : Symbol α) (a : Expr α) : Expr α := node s [a]

def binary (s : Symbol α) (a b : Expr α) : Expr α := node s [a, b]

/-! ### Looking at one node -/

def variableName? : Expr α → Option String
  | node (.var name _) _ => some name
  | _ => none

def constantValue? : Expr α → Option α
  | node (.const value) _ => some value
  | _ => none

/-! ### Size and order -/

mutual

/-- The number of nodes. -/
def size : Expr α → Nat
  | node _ args => 1 + sizeAll args

def sizeAll : List (Expr α) → Nat
  | [] => 0
  | a :: rest => size a + sizeAll rest

end

mutual

/-- The number of nodes on a longest way down. -/
def depth : Expr α → Nat
  | node _ args => 1 + depthAll args

def depthAll : List (Expr α) → Nat
  | [] => 0
  | a :: rest => max (depth a) (depthAll rest)

end

mutual

/-- The subexpressions, each before its operands. -/
def preorder : Expr α → List (Expr α)
  | node s args => node s args :: preorderAll args

def preorderAll : List (Expr α) → List (Expr α)
  | [] => []
  | a :: rest => preorder a ++ preorderAll rest

end

mutual

/-- The subexpressions with their numbers, each after its operands; the whole has the number
`first`. -/
def postorder (first : Nat) : Expr α → List (Nat × Expr α)
  | node s args => postorderAll (first + 1) args ++ [(first, node s args)]

def postorderAll (first : Nat) : List (Expr α) → List (Nat × Expr α)
  | [] => []
  | a :: rest => postorder first a ++ postorderAll (first + size a) rest

end

/-- Whether two expressions have equal symbols in the same places. -/
def beq [BEq α] (a b : Expr α) : Bool :=
  let label (e : Expr α) := (e.symbol, e.operands.length)
  a.preorder.map label == b.preorder.map label

instance [BEq α] : BEq (Expr α) := ⟨beq⟩

/-! ### Variables -/

/-- The names at the variable nodes, each after those of its operands. -/
def variableOccurrences (e : Expr α) : List String :=
  (e.postorder 0).filterMap fun (_, a) => a.variableName?

/-- The distinct variables in the order in which they first occur. -/
def variableNames (e : Expr α) : List String := e.variableOccurrences.eraseDups

def occurrences (e : Expr α) (name : String) : Nat := e.variableOccurrences.count name

mutual

def mentions (name : String) : Expr α → Bool
  | node s args => (node s []).variableName? == some name || mentionsAny name args

def mentionsAny (name : String) : List (Expr α) → Bool
  | [] => false
  | a :: rest => mentions name a || mentionsAny name rest

end

end Expr

end ModalBounds
