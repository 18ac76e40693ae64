import ModalBounds.CommandLine.Arguments
import ModalBounds.CommandLine.Table
import ModalBounds.Json.Codec
import ModalBounds.Syntax.Constraint

/-!
# Running commands

`Command.run` says what a command prints and with which code it ends. Files are looked up in a
function, so that nothing here depends on the outside.
-/

namespace ModalBounds

/-- What a failed command says. -/
inductive Diagnostic where
  /-- The headline of a report that points into a source. -/
  | headline (text : String)
  | plain (text : String)

/-- What a command does. -/
structure Outcome where
  code : Nat
  stdout : String
  diagnostic : Option Diagnostic

/-- Why a command fails. -/
inductive CommandError (α : Type) where
  /-- A source, named for the message, cannot be read. -/
  | inSource (source : String) (error : ModelError α)
  | bound (error : ModelError α)
  | noNumber (text : String) (error : NumberError)
  | undefinedBound (text : String)
  | notARange (text : String)
  | namelessRange (text : String)
  | unreadable (file : String)
  | noConstraints
  | emptySource (source : String)

variable {α : Type} [Scalar α] [Numeral α]

namespace CommandError

/-- The message for an error of the library. -/
def boundMessage : ModelError α → String
  | .limitExceeded limit allowed actual =>
    "Resource limit exceeded: " ++ limit.name ++ "\n  Limit: " ++ limit.amount allowed
      ++ "\n  Actual: " ++ limit.amount actual ++ "\n  " ++ limit.suggestion
  | .unsupportedSymbol symbol node =>
    (ModelError.unsupportedSymbol symbol node).message
      ++ "\n  The modal interval engine cannot evaluate '" ++ symbol.name
      ++ "'; rewrite the model without it"
  | e => "Error: " ++ e.message

/-- A syntax error is reported in its source, everything else by its message alone. -/
def diagnostic : CommandError α → Diagnostic
  | inSource source (.parse cause span) =>
    .headline ("Error: Parse error: " ++ cause.message ++ " (in " ++ source ++ " at line "
      ++ toString span.line ++ ")")
  | inSource _ e => .plain (boundMessage e)
  | bound e => .plain (boundMessage e)
  | noNumber text e => .plain ("Error: Invalid bound '" ++ text ++ "': " ++ e.message)
  | undefinedBound text => .plain ("Error: Invalid bound '" ++ text ++ "'")
  | notARange text => .plain ("Error: Invalid range '" ++ text ++ "': expected name=lo..hi")
  | namelessRange text => .plain ("Error: Invalid range '" ++ text ++ "': missing variable name")
  | unreadable file =>
    .plain ("Error: Failed to read " ++ file ++ ": No such file or directory (os error 2)")
  | noConstraints =>
    .plain "Error: No constraints given (use --constraints FILE or -c CONSTRAINT)"
  | emptySource source => .plain ("Error: " ++ source ++ " contains no constraints")

end CommandError

namespace Command

/-! ### Reading the arguments' texts -/

/-- Splits a text at the first place where another text stands; the other text is in neither
part. -/
def splitOnce? (separator : List Char) : List Char → Option (List Char × List Char)
  | [] => if separator.isEmpty then some ([], []) else none
  | c :: cs =>
    if separator.isPrefixOf (c :: cs) then some ([], (c :: cs).drop separator.length)
    else (splitOnce? separator cs).map fun (before, after) => (c :: before, after)

def readBound (text : List Char) : Except (CommandError α) α :=
  let trimmed := trimBlanks text
  match readNumber trimmed with
  | .error e => .error (.noNumber (String.ofList trimmed) e)
  | .ok x => if Scalar.isNaN x then .error (.undefinedBound (String.ofList trimmed)) else .ok x

/-- A range `name=lo..hi` or `name=value`. -/
def readRange (text : String) : Except (CommandError α) (String × Interval α) :=
  match splitOnce? ['='] text.toList with
  | none => .error (.notARange text)
  | some (name, range) => do
    let name := trimBlanks name
    if name.isEmpty then throw (.namelessRange text)
    match splitOnce? ['.', '.'] range with
    | none => return (String.ofList name, Interval.point (← readBound range))
    | some (lower, upper) =>
      let lower ← readBound lower
      let upper ← readBound upper
      match Interval.of lower upper with
      | .ok x => return (String.ofList name, x)
      | .error e => throw (.bound e)

/-- The ranges of some arguments; of two with the same name the later one counts. -/
def readRanges (c : Collection α) : List String → Except (CommandError α) (Collection α)
  | [] => .ok c
  | text :: rest => do
    let (name, x) ← readRange text
    readRanges (c.insert name x) rest

def readModel (expression : String) : Except (CommandError α) (Expr α) :=
  (Expr.read {} expression).mapError (.inSource "<expression>")

/-! ### Reports -/

/-- The bound of a subexpression. -/
structure NodeReport (α : Type) where
  node : Nat
  expression : String
  bound : Interval α

/-- How far a constraint is violated. -/
structure ConstraintReport (α : Type) where
  constraint : String
  violation : α
  weighted : α

def boundText (x : Interval α) : String := if x.isUndefined then "undefined" else x.text

def boundTable (model : Expr α) (bound : Interval α) : Table :=
  ⟨none, [[Cell.left (model.text ++ " ∈ " ++ boundText bound)]]⟩

def nodeTable (nodes : List (NodeReport α)) : Table where
  header := some [Cell.right "Node", Cell.left "Expression", Cell.left "Bound"]
  rows := nodes.map fun n =>
    [Cell.right (toString n.node), Cell.left n.expression, Cell.left (boundText n.bound)]

def boundJson (model : Expr α) (approximation : Approximation) (bound : Interval α)
    (nodes : List (NodeReport α)) : Json :=
  let nodeJson (n : NodeReport α) : Json :=
    .object [("id", .integer n.node), ("expression", .string n.expression),
      ("bound", n.bound.toJson)]
  .object <|
    [("expression", .string model.text), ("approximation", approximation.toJson),
      ("bound", bound.toJson)]
      ++ (if nodes.isEmpty then [] else [("nodes", Json.array (nodes.map nodeJson))])

def isSatisfied (r : ConstraintReport α) : Bool := r.violation == 0

def constraintTable (reports : List (ConstraintReport α)) : Table where
  header := some
    [Cell.left "Constraint", Cell.left "Status", Cell.right "Violation", Cell.right "Weighted"]
  rows := reports.map fun r =>
    [Cell.left r.constraint, Cell.left (if isSatisfied r then "satisfied" else "violated"),
      Cell.right (numberText r.violation), Cell.right (numberText r.weighted)]

/-- The sum of the weighted violations. It starts from minus zero, which changes no number. -/
def totalViolation (reports : List (ConstraintReport α)) : α :=
  (reports.map (·.weighted)).foldl (· + ·) (-0)

def summary (reports : List (ConstraintReport α)) : String :=
  toString (reports.countP isSatisfied) ++ " of " ++ toString reports.length
    ++ " constraints satisfied, total weighted violation: " ++ numberText (totalViolation reports)
    ++ "\n"

def constraintsJson (reports : List (ConstraintReport α)) : Json :=
  .array <| reports.map fun r =>
    .object [("constraint", .string r.constraint), ("violation", Json.ofScalar r.violation),
      ("weighted_violation", Json.ofScalar r.weighted)]

end Command

/-! ### The commands -/

variable {α : Type} [Elementary α] [Numeral α]

namespace Command

def approximationOf (inner : Bool) : Approximation := if inner then .inner else .outer

/-- The result of a computation whose count is not asked for. -/
def uncounted {β : Type} (c : Counted α β) : Except (CommandError α) β :=
  let (result, _) := c.run.run 0
  result.mapError .bound

/-- The bounds of the nodes of a model, in pre-order, with their expressions. -/
def nodeReports (model : Expr α) (bounds : List (Nat × Interval α)) : List (NodeReport α) :=
  (bounds.zip model.preorder).map fun ((n, x), e) => ⟨n, e.text, x⟩

def runBound (expression : String) (ranges : List String) (inner nodes json : Bool) :
    Except (CommandError α) String := do
  let model ← readModel expression
  let ranges ← readRanges ∅ ranges
  let estimator : Estimator := { approximation := approximationOf inner }
  let bound ← uncounted (estimator.modelBound model ranges)
  let bounds ← if nodes then uncounted (estimator.nodeBounds model ranges) else pure []
  let reports := nodeReports model bounds
  if json then return (boundJson model estimator.approximation bound reports).pretty ++ "\n"
  else
    return (boundTable model bound).text
      ++ (if reports.isEmpty then "" else (nodeTable reports).text)

/-- The name and the text of the constraints. -/
def constraintSource (files : String → Option String) (file : Option String)
    (constraints : List String) : Except (CommandError α) (String × String) :=
  match file, constraints with
  | some name, _ =>
    match files name with
    | some text => .ok (name, text)
    | none => .error (.unreadable name)
  | none, [] => .error .noConstraints
  | none, lines => .ok ("<constraints>", "\n".intercalate lines)

def runCheck (files : String → Option String) (expression : String) (ranges : List String)
    (file : Option String) (lines : List String) (inner json : Bool) :
    Except (CommandError α) String := do
  let model ← readModel expression
  let ranges ← readRanges ∅ ranges
  let (name, source) ← constraintSource files file lines
  let constraints ← (ShapeConstraint.readBlock {} source).mapError (.inSource name)
  if constraints.isEmpty then throw (.emptySource name)
  let estimator : Estimator := { approximation := approximationOf inner }
  let violations ← uncounted (estimator.violations model ranges constraints)
  let reports := (constraints.zip violations).map fun (c, violation) =>
    ConstraintReport.mk c.text violation (c.weight * violation)
  if json then return (constraintsJson reports).pretty ++ "\n"
  else return (constraintTable reports).text ++ summary reports

def runDerive (expression variableName : String) (order : Nat) :
    Except (CommandError α) String := do
  let model : Expr α ← readModel expression
  let derivative ← (model.nthDerivative variableName order).mapError .bound
  return derivative.text ++ "\n"

/-- What a command prints, over numbers `α`. -/
def output (α : Type) [Elementary α] [Numeral α] (files : String → Option String) :
    Command → Except (CommandError α) String
  | bound expression ranges inner nodes json => runBound expression ranges inner nodes json
  | check expression ranges file constraints inner json =>
    runCheck files expression ranges file constraints inner json
  | derive expression variableName order => runDerive expression variableName order

/-- Runs the program with some arguments. A usage error ends with code two, any other with code
one. -/
def run (α : Type) [Elementary α] [Numeral α] (files : String → Option String)
    (args : List String) : Outcome :=
  match ofArguments? args with
  | none => ⟨2, "", none⟩
  | some command =>
    match command.output α files with
    | .ok text => ⟨0, text, none⟩
    | .error e => ⟨1, "", some e.diagnostic⟩

end Command

end ModalBounds
