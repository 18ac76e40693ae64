import ModalBounds.Interval.Plain

/-!
# Shape constraints

A constraint asks that a model, or a partial derivative of it, stays in a target interval. Its
violation by a bound is how far the bound sticks out of the target on either side.
-/

namespace ModalBounds

/-- A target interval for a model, or for its derivative of order `derivations` with respect to
`variableName`. -/
structure ShapeConstraint (α : Type) where
  target : Interval α
  weight : α
  variableName : Option String
  derivations : Nat
  /-- Ranges that replace those of the caller. -/
  regions : Option (Collection α)

namespace ShapeConstraint

variable {α : Type} [Scalar α]

def onModel (target : Interval α) : ShapeConstraint α := ⟨target, 1, none, 0, none⟩

def onDerivative (target : Interval α) (variableName : String) (order : Nat) : ShapeConstraint α :=
  ⟨target, 1, some variableName, order, none⟩

omit [Scalar α] in
def isDerivative (c : ShapeConstraint α) : Bool :=
  c.variableName.isSome && decide (0 < c.derivations)

/-- How far a bound sticks out of the target, both sides added. An undefined bound cannot be
certified, and is infinitely far out. -/
def violation (c : ShapeConstraint α) (bound : Interval α) : α :=
  if bound.isUndefined then Scalar.infinity
  else if c.target.contains bound then 0
  else
    let below : α := if bound.lower < c.target.lower then c.target.lower - bound.lower else 0
    if c.target.upper < bound.upper then below + (bound.upper - c.target.upper) else below

def weightedViolation (c : ShapeConstraint α) (bound : Interval α) : α :=
  c.weight * c.violation bound

/-- Whether two constraints are equal, as numbers compare. -/
def beq (c d : ShapeConstraint α) : Bool :=
  c.target == d.target && c.weight == d.weight && c.variableName == d.variableName &&
    c.derivations == d.derivations &&
    c.regions.map (·.toList) == d.regions.map (·.toList)

instance : BEq (ShapeConstraint α) := ⟨beq⟩

/-! ### The text of a constraint -/

variable [Numeral α]

/-- What is constrained. Up to the third derivative the order is a superscript. -/
def subjectText (c : ShapeConstraint α) : String :=
  match c.variableName, c.derivations with
  | none, _ => "f"
  | some _, 0 => "f"
  | some x, 1 => "∂f/∂" ++ x
  | some x, 2 => "∂²f/∂" ++ x ++ "²"
  | some x, 3 => "∂³f/∂" ++ x ++ "³"
  | some x, n => "∂^" ++ toString n ++ "f/∂" ++ x ++ "^" ++ toString n

def regionsText (regions : Collection α) : String :=
  String.join (regions.toList.map fun (x, interval) => ", " ++ x ++ " in " ++ interval.text)

def text (c : ShapeConstraint α) : String :=
  c.subjectText ++ " in " ++ c.target.text ++ (c.regions.map regionsText).getD "" ++
    (if c.weight == 1 then "" else ", weight: " ++ numberText c.weight)

end ShapeConstraint

end ModalBounds
