import ModalBounds.Evaluation.Machine
import ModalBounds.Expr.Derivative
import ModalBounds.Expr.Occurrence

/-!
# Tightening by monotonicity

If a model is monotonic in `x`, and also in every occurrence of `x`, then an occurrence that pulls
against the whole is evaluated over the dual of its range. That pins it to the other end and takes
back the overestimation of treating the occurrences as independent. A bound computation is a fold of
such steps over the variables, on `WorkingRanges`.

The steps are written for any monad that is told which expressions are handed over and which bounds
are computed (`MonadBound`). The program runs them as they are in `Except`, and in `Counted` where
the bounds are counted.
-/

namespace ModalBounds

/-- What a bound computation runs in: it may fail, and it is told of each expression that it hands
over to be differentiated, to have its occurrences told apart or to be compiled, and of each bound
that it computes. -/
class MonadBound (α : outParam Type) (m : Type → Type) where
  hand : Expr α → m Unit
  count : m Unit
  ofExcept {β : Type} : Except (ModelError α) β → m β

/-- Nobody is told. -/
instance {α : Type} : MonadBound α (Except (ModelError α)) where
  hand _ := .ok ()
  count := .ok ()
  ofExcept x := x

namespace Expr

variable {α : Type} {m : Type → Type} [Monad m] [MonadBound α m]

open MonadBound

def derivativeM [Scalar α] (x : String) (e : Expr α) : m (Expr α) := do
  hand e
  ofExcept (e.derivative x)

def compileM (e : Expr α) : m (Program α) := do
  hand e
  ofExcept (Program.compile e)

def occurrenceTreeM (e : Expr α) : m (OccurrenceTree α) := do
  hand e
  return .of e

end Expr

/-- The ranges of one bound computation. -/
structure WorkingRanges (α : Type) where
  /-- The ranges of the model's variables. -/
  ranges : Ranges α
  /-- The ranges of the variables' occurrences. -/
  occurrences : Ranges α

/-- The direction in which a monotonic function goes. -/
inductive Direction where
  | up
  | down
deriving DecidableEq, Repr

/-- The direction of a function whose derivative has the given range: up if no value is negative,
down if none is positive. -/
def direction? {α : Type} [Scalar α] (derivative : ModalInterval α) : Option Direction :=
  if derivative.isUndefined then none
  else if 0 ≤ derivative.proper.lower then some .up
  else if derivative.proper.upper ≤ 0 then some .down
  else none

namespace OccurrenceTree

variable {α : Type}

/-- Gives all names of a variable the same range. -/
def seedNames (range : ModalInterval α) (names : List String) (seeded : Ranges α) : Ranges α :=
  names.foldl (fun seeded name => seeded.insert name range) seeded

/-- Gives every occurrence the range of its variable, on top of the ranges seeded before. -/
def seedAll (ranges seeded : Ranges α) :
    List (String × List String) → Except (ModelError α) (Ranges α)
  | [] => .ok seeded
  | (name, names) :: rest =>
    match ranges[name]? with
    | none => .error (.missingRange name)
    | some range => seedAll ranges (seedNames range names seeded) rest

def seedRanges (k : OccurrenceTree α) (ranges : Ranges α) : Except (ModelError α) (Ranges α) :=
  seedAll ranges ∅ k.names

end OccurrenceTree

namespace WorkingRanges

variable {α : Type}

/-- Every occurrence starts with the range of its variable. -/
def seed (k : OccurrenceTree α) (ranges : Ranges α) : Except (ModelError α) (WorkingRanges α) := do
  let occurrences ← k.seedRanges ranges
  return ⟨ranges, occurrences⟩

/-- Looks up occurrences first, then variables. -/
def environment (state : WorkingRanges α) : Environment α :=
  state.occurrences.environment.orElse state.ranges.environment

def dualizeName (state : WorkingRanges α) (name : String) : WorkingRanges α :=
  { state with occurrences := state.occurrences.modify name ModalInterval.dual }

/-- Dualizes the occurrences that go against the whole. -/
def dualizeAgainst (overall : Direction) (state : WorkingRanges α) :
    List (String × Direction) → WorkingRanges α
  | [] => state
  | (name, direction) :: rest =>
    dualizeAgainst overall (if direction = overall then state else state.dualizeName name) rest

section
variable [Elementary α] {m : Type → Type} [Monad m] [MonadBound α m]

def evaluateM (state : WorkingRanges α) (e : Expr α) : m (ModalInterval α) := do
  let p ← e.compileM
  MonadBound.ofExcept (p.evaluate state.environment)

/-- The range of the partial derivative with respect to a variable. -/
def slopeM (state : WorkingRanges α) (e : Expr α) (name : String) : m (ModalInterval α) := do
  let d ← e.derivativeM name
  state.evaluateM d

/-- The directions of an expression in some variables, up to the first in which it is not
monotonic; absent if there is one. -/
def directionsM? (state : WorkingRanges α) (e : Expr α) :
    List String → m (Option (List Direction))
  | [] => return some []
  | name :: rest => do
    let slope ← state.slopeM e name
    match direction? slope with
    | none => return none
    | some direction =>
      let directions ← directionsM? state e rest
      return directions.map (direction :: ·)

/-- Dualizes the occurrences of a variable that go against the model, if the model is monotonic in
the variable and in each occurrence of it; also returns whether it is. A variable that occurs at
most once is left alone. To dualize only some of the occurrences would not be sound. -/
def dualizeM (state : WorkingRanges α) (model : Expr α) (k : OccurrenceTree α) (name : String) :
    m (WorkingRanges α × Bool) := do
  let names := k.occurrenceNames name
  if names.length ≤ 1 then return (state, true)
  let slope ← state.slopeM model name
  match direction? slope with
  | none => return (state, false)
  | some overall =>
    match ← state.directionsM? k.tree names with
    | none => return (state, false)
    | some directions => return (dualizeAgainst overall state (names.zip directions), true)

end

section
variable [Elementary α]

def evaluate (state : WorkingRanges α) (e : Expr α) : Except (ModelError α) (ModalInterval α) :=
  state.evaluateM e

def slope (state : WorkingRanges α) (e : Expr α) (name : String) :
    Except (ModelError α) (ModalInterval α) :=
  state.slopeM e name

def directions? (state : WorkingRanges α) (e : Expr α) (names : List String) :
    Except (ModelError α) (Option (List Direction)) :=
  state.directionsM? e names

def dualize (state : WorkingRanges α) (model : Expr α) (k : OccurrenceTree α) (name : String) :
    Except (ModelError α) (WorkingRanges α × Bool) :=
  state.dualizeM model k name

end

variable [Scalar α]

/-- Collapses a variable and all of its occurrences to the middle of its range. -/
def collapseToMid (state : WorkingRanges α) (k : OccurrenceTree α) (name : String) :
    WorkingRanges α :=
  match state.ranges[name]? with
  | none => state
  | some range =>
    let middle := ModalInterval.point range.mid
    ⟨state.ranges.insert name middle,
      OccurrenceTree.seedNames middle (k.occurrenceNames name) state.occurrences⟩

end WorkingRanges

end ModalBounds
