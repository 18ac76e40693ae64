import Std.Data.ExtTreeMap
import ModalBounds.Evaluation.Program
import ModalBounds.Interval.Plain
import ModalBounds.Interval.Function

/-!
# Running programs over ranges

A program runs with a cursor: an instruction is taken from what is left of the program, then its
operands are evaluated from what is left after it. The interval of each node is recorded when it is
known, unless the node has one already; what was recorded before a failure stays.
-/

namespace ModalBounds

/-- The ranges that variables stand for. -/
abbrev Environment (α : Type) := String → Option (ModalInterval α)

/-- Looks a variable up in some ranges. -/
def Ranges.environment {α : Type} (ranges : Ranges α) : Environment α := fun name => ranges[name]?

/-- Looks a variable up in one environment first, then in another. -/
def Environment.orElse {α : Type} (first second : Environment α) : Environment α :=
  fun name => (first name).or (second name)

abbrev NodeIntervals (α : Type) := Std.ExtTreeMap Nat (ModalInterval α)

/-- A program under way. -/
structure Machine (α : Type) where
  /-- The instructions after the cursor. -/
  rest : Program α
  recorded : NodeIntervals α

/-- A step of a running program. A failure keeps the machine. -/
abbrev Run (α : Type) := ExceptT (ModelError α) (StateM (Machine α))

namespace Machine

variable {α : Type}

def fetch : Run α (Instruction α) := do
  let machine ← get
  match machine.rest with
  | [] => throw (.malformedTree 0 .endedEarly)
  | i :: rest =>
    set { machine with rest := rest }
    return i

/-- Records the interval of a node that has none yet. -/
def record (node : Nat) (x : ModalInterval α) : Run α Unit :=
  modify fun machine => { machine with recorded := machine.recorded.insertIfNew node x }

/-- Combines an interval with `count` more operands, from left to right. -/
def accumulate (op : ModalInterval α → ModalInterval α → ModalInterval α)
    (operand : Run α (ModalInterval α)) : (count : Nat) → ModalInterval α → Run α (ModalInterval α)
  | 0, total => return total
  | count + 1, total => do
    let x ← operand
    accumulate op operand count (op total x)

/-- Combines `count` operands, at least one, from left to right. -/
def fold (op : ModalInterval α → ModalInterval α → ModalInterval α)
    (operand : Run α (ModalInterval α)) (count : Nat) : Run α (ModalInterval α) := do
  let first ← operand
  accumulate op operand (count - 1) first

variable [Elementary α]

/-- The power whose exponent is an interval: a single integer of 32 bits. -/
def powerOf (base exponent : ModalInterval α) : Except (ModelError α) (ModalInterval α) :=
  if exponent.isDegenerate then
    match base.pow? exponent.lower with
    | some x => .ok x
    | none => .error (.unsupportedExponent (.value exponent.lower))
  else .error (.unsupportedExponent (.range exponent))

/-- The range of the variable at a node, times its weight. -/
def variableRange (env : Environment α) (i : Instruction α) : Run α (ModalInterval α) :=
  match i.expr.symbol with
  | .var name weight =>
    match env name with
    | some x => return x * ModalInterval.point weight
    | none => throw (.missingRange name)
  | _ => throw (.malformedTree i.node .notVariable)

/-- The value of an operation, whose operands are evaluated by `operand`. -/
def apply (env : Environment α) (operand : Run α (ModalInterval α)) (i : Instruction α) :
    Run α (ModalInterval α) :=
  match i.opcode with
  | .var => variableRange env i
  | .const => return ModalInterval.point (i.expr.constantValue?.getD Scalar.nan)
  | .add => fold (· + ·) operand i.argCount
  | .sub =>
    if i.argCount = 1 then do return -(← operand) else fold (· - ·) operand i.argCount
  | .mul => fold (· * ·) operand i.argCount
  | .div =>
    if i.argCount = 1 then do return (← operand).recip else fold (· / ·) operand i.argCount
  | .sin => do return (← operand).sin
  | .cos => do return (← operand).cos
  | .tan => do return (← operand).tan
  | .tanh => do return (← operand).tanh
  | .log => do return (← operand).log
  | .exp => do return (← operand).exp
  | .square => do return (← operand).square
  | .sqrt => do return (← operand).sqrt
  | .abs => do return (← operand).abs
  | .subFunction => operand
  | .power => do
    let base ← operand
    let exponent ← operand
    match powerOf base exponent with
    | .ok x => return x
    | .error e => throw e
  | .analyticQuotient => do
    let x ← operand
    let y ← operand
    return x.analyticQuotient y

/-- Evaluates the instruction at the cursor. Each takes one instruction, so `fuel` counts how many
may be left. -/
def next (env : Environment α) : (fuel : Nat) → Run α (ModalInterval α)
  | 0 => throw (.malformedTree 0 .endedEarly)
  | fuel + 1 => do
    let i ← fetch
    let x ← apply env (next env fuel) i
    record i.node x
    return x

end Machine

namespace Program

variable {α : Type} [Elementary α]

/-- Runs a program; also returns the machine at the end. -/
def run (p : Program α) (env : Environment α) (recorded : NodeIntervals α) :
    Except (ModelError α) (ModalInterval α) × Machine α :=
  match p.missing? fun name => (env name).isSome with
  | some name => (.error (.missingRange name), ⟨p, recorded⟩)
  | none => (Machine.next env p.length).run.run ⟨p, recorded⟩

def evaluate (p : Program α) (env : Environment α) : Except (ModelError α) (ModalInterval α) :=
  (p.run env ∅).1

end Program

end ModalBounds
