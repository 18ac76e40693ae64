import ModalBounds.Constraint.Basic
import ModalBounds.Tightening.Monotone

/-!
# Bounds of models

`approximate` folds the tightening steps over a model's variables and evaluates the model over what
they leave: an enclosure of its range (`outer`), or a bound for which the variables that it is not
monotonic in are collapsed to a point (`inner`). An `Estimator` adds limits, and counts how many
bounds it computed.
-/

namespace ModalBounds

/-- What to do with a variable that a model is not monotonic in. -/
inductive Approximation where
  /-- Keep its range. -/
  | outer
  /-- Collapse it to the middle of its range. -/
  | inner
deriving DecidableEq, Repr

/-- The ranges that a constraint is checked over. -/
def ShapeConstraint.rangesOver {α : Type} (c : ShapeConstraint α) (ranges : Collection α) :
    Collection α :=
  match c.regions with
  | some regions => NameMap.merge ranges regions
  | none => ranges

section
variable {α : Type} {m : Type → Type} [Monad m] [MonadBound α m]

/-- What a constraint is about: the model, or a derivative of it. -/
def ShapeConstraint.subjectM [Scalar α] (c : ShapeConstraint α) (model : Expr α) : m (Expr α) :=
  match c.variableName with
  | none => return model
  | some name => model.nthDerivativeM (Expr.derivativeM name) c.derivations

variable [Elementary α]

/-- Tightens the ranges of some variables, one after the other. -/
def tightenM (approximation : Approximation) (model : Expr α) (k : OccurrenceTree α)
    (state : WorkingRanges α) : List String → m (WorkingRanges α)
  | [] => return state
  | name :: rest => do
    let (state, monotonic) ← state.dualizeM model k name
    let collapse := !monotonic && approximation == .inner
    tightenM approximation model k (if collapse then state.collapseToMid k name else state) rest

/-- The bound of a model, with the intervals of its nodes recorded. -/
def approximateNodesM (approximation : Approximation) (model : Expr α) (ranges : Ranges α) :
    m (ModalInterval α × NodeIntervals α) := do
  let k ← model.occurrenceTreeM
  let state ← MonadBound.ofExcept (WorkingRanges.seed k ranges)
  let state ← tightenM approximation model k state k.variableNames
  let p ← k.tree.compileM
  let (bound, machine) := p.run state.environment ∅
  let bound ← MonadBound.ofExcept bound
  return (bound, machine.recorded)

def approximateM (approximation : Approximation) (model : Expr α) (ranges : Ranges α) :
    m (ModalInterval α) := do
  let (bound, _) ← approximateNodesM approximation model ranges
  return bound

end

section
variable {α : Type}

def ShapeConstraint.subject [Scalar α] (c : ShapeConstraint α) (model : Expr α) :
    Except (ModelError α) (Expr α) :=
  c.subjectM model

variable [Elementary α]

def tighten (approximation : Approximation) (model : Expr α) (k : OccurrenceTree α)
    (state : WorkingRanges α) (names : List String) : Except (ModelError α) (WorkingRanges α) :=
  tightenM approximation model k state names

def approximateNodes (approximation : Approximation) (model : Expr α) (ranges : Ranges α) :
    Except (ModelError α) (ModalInterval α × NodeIntervals α) :=
  approximateNodesM approximation model ranges

def approximate (approximation : Approximation) (model : Expr α) (ranges : Ranges α) :
    Except (ModelError α) (ModalInterval α) :=
  approximateM approximation model ranges

/-- The tightest enclosure of the model's range that monotonicity certifies. -/
def outerApproximation (model : Expr α) (ranges : Ranges α) :
    Except (ModelError α) (ModalInterval α) :=
  approximate .outer model ranges

/-- The bound with every variable that the model is not monotonic in collapsed to a point. -/
def innerApproximation (model : Expr α) (ranges : Ranges α) :
    Except (ModelError α) (ModalInterval α) :=
  approximate .inner model ranges

end

/-- How bounds are computed. -/
structure Estimator where
  approximation : Approximation := .outer
  limits : Limits := {}

/-- A computation that counts the bounds it computes, also when it fails. -/
abbrev Counted (α : Type) := ExceptT (ModelError α) (StateM Nat)

instance {α : Type} : MonadBound α (Counted α) where
  hand _ := pure ()
  count := modify (· + 1)
  ofExcept x := MonadExcept.ofExcept x

namespace Estimator

section
variable {α : Type} [Elementary α] {m : Type → Type} [Monad m] [MonadBound α m]

/-- Counts one bound computation of a model that is within the limits. -/
def enterM (estimator : Estimator) (model : Expr α) : m Unit := do
  MonadBound.ofExcept (estimator.limits.checkTree model)
  MonadBound.count

def modelBoundM (estimator : Estimator) (model : Expr α) (ranges : Collection α) :
    m (Interval α) := do
  estimator.enterM model
  let bound ← approximateM estimator.approximation model ranges.toRanges
  return bound.toInterval

def nodeBoundsM (estimator : Estimator) (model : Expr α) (ranges : Collection α) :
    m (List (Nat × Interval α)) := do
  estimator.enterM model
  let (_, nodes) ← approximateNodesM estimator.approximation model ranges.toRanges
  return nodes.toList.map fun (n, x) => (n, x.toInterval)

def violationM (estimator : Estimator) (model : Expr α) (ranges : Collection α)
    (c : ShapeConstraint α) : m α := do
  let subject ← c.subjectM model
  let bound ← estimator.modelBoundM subject (c.rangesOver ranges)
  return c.violation bound

def violationsM (estimator : Estimator) (model : Expr α) (ranges : Collection α) :
    List (ShapeConstraint α) → m (List α)
  | [] => return []
  | c :: rest => do
    let v ← estimator.violationM model ranges c
    let vs ← violationsM estimator model ranges rest
    return v :: vs

end

variable {α : Type} [Elementary α]

def modelBound (estimator : Estimator) (model : Expr α) (ranges : Collection α) :
    Counted α (Interval α) :=
  estimator.modelBoundM model ranges

def nodeBounds (estimator : Estimator) (model : Expr α) (ranges : Collection α) :
    Counted α (List (Nat × Interval α)) :=
  estimator.nodeBoundsM model ranges

def violation (estimator : Estimator) (model : Expr α) (ranges : Collection α)
    (c : ShapeConstraint α) : Counted α α :=
  estimator.violationM model ranges c

def violations (estimator : Estimator) (model : Expr α) (ranges : Collection α)
    (constraints : List (ShapeConstraint α)) : Counted α (List α) :=
  estimator.violationsM model ranges constraints

end Estimator

end ModalBounds
