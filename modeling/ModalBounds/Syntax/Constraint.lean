import ModalBounds.Constraint.Basic
import ModalBounds.Syntax.Expression

/-!
# Reading constraints

`ShapeConstraint.readLine` reads one constraint such as `∂f/∂x in [0 .. inf], x in [0 .. 1]`, and
`ShapeConstraint.readBlock` one on each line, with empty lines and comments between them. The places
in the errors of a block are places in the block. A line is read without the white space at its
ends.
-/

namespace ModalBounds

/-! ### White space -/

/-- Whether a character has the Unicode property `White_Space`. -/
def isWhiteSpace (c : Char) : Bool :=
  let n := c.toNat
  (decide (0x9 ≤ n) && decide (n ≤ 0xD)) || n == 0x20 || n == 0x85 || n == 0xA0 || n == 0x1680 ||
    (decide (0x2000 ≤ n) && decide (n ≤ 0x200A)) || n == 0x2028 || n == 0x2029 || n == 0x202F ||
    n == 0x205F || n == 0x3000

/-- A text without the white space at its ends. -/
def trimBlanks (text : List Char) : List Char :=
  ((text.dropWhile isWhiteSpace).reverse.dropWhile isWhiteSpace).reverse

/-! ### Constraints -/

namespace ShapeConstraint

variable {α : Type} [Scalar α] [Numeral α]

/-- The order that a superscript stands for. -/
def orderOf (t : Token Rule) : Nat :=
  match t.chars with
  | ['³'] => 3
  | _ => 2

/-- The variable and the order of a derivative, from the parts of its token. Without superscripts
the order is one; otherwise both have to say the same. -/
def derivativeOf (source : List Char) (t : Token Rule) (parts : List (Token Rule)) :
    Except (ModelError α) (String × Nat) :=
  let orders := (parts.filter (·.rule == .order)).map orderOf
  match (parts.find? (·.rule == .constraintVar)).bind nameOf? with
  | none => failAt source t (.incomplete .constraintVar)
  | some name =>
    match orders with
    | [] => .ok (name, 1)
    | [a, b] => if a = b then .ok (name, a) else failAt source t .ordersDiffer
    | _ => failAt source t .ordersDiffer

/-- What a target token constrains: the model, or a derivative of it. -/
def targetOf (source : List Char) (t : Token Rule) :
    Except (ModelError α) (Option (String × Nat)) :=
  match t.parts with
  | [.node .functionTarget _ _ _] => .ok none
  | [.node _ _ _ parts] => do return some (← derivativeOf source t parts)
  | _ => failAt source t (.incomplete .constraintTarget)

/-- The number of a bound: a sign, and a numeral or infinity. -/
def boundOf (source : List Char) (t : Token Rule) : Except (ModelError α) α :=
  let (negative, unsigned) := match t.chars with
    | '-' :: rest => (true, rest)
    | '+' :: rest => (false, rest)
    | chars => (false, chars)
  let value? : Option α := match unsigned with
    | ['i', 'n', 'f'] => some Scalar.infinity
    | ['∞'] => some Scalar.infinity
    | number => numeral? number
  match value? with
  | some value => .ok (if negative then -value else value)
  | none => failAt source t (.incomplete .bound)

def intervalOf (source : List Char) (t : Token Rule) : Except (ModelError α) (Interval α) :=
  match t.parts with
  | [lower, upper] => do
    let lower ← boundOf source lower
    let upper ← boundOf source upper
    match Interval.of lower upper with
    | .ok x => return x
    | .error (.invalidInterval lower upper) => failAt source t (.reversed lower upper)
    | .error e => .error e
  | _ => failAt source t (.incomplete .boundInterval)

/-- The regions of a list, added to those before. -/
def regionsOf (source : List Char) (regions : Collection α) :
    List (Token Rule) → Except (ModelError α) (Collection α)
  | [] => .ok regions
  | t :: rest =>
    match t.parts with
    | [name, interval] =>
      match nameOf? name with
      | some name => do
        let interval ← intervalOf source interval
        regionsOf source (regions.insert name interval) rest
      | none => failAt source name (.incomplete .constraintVar)
    | _ => failAt source t (.incomplete .region)

def weightOf (source : List Char) (t : Token Rule) : Except (ModelError α) α :=
  match t.parts with
  | [bound] => boundOf source bound
  | _ => failAt source t (.incomplete .weightClause)

/-- The regions and the weight that follow a target. -/
def optionsOf (source : List Char) (c : ShapeConstraint α) :
    List (Token Rule) → Except (ModelError α) (ShapeConstraint α)
  | [] => .ok c
  | t :: rest => do
    match t.rule with
    | .regionList =>
      let regions ← regionsOf source ∅ t.parts
      optionsOf source { c with regions := some regions } rest
    | .weightClause =>
      let weight ← weightOf source t
      optionsOf source { c with weight := weight } rest
    | _ => optionsOf source c rest

/-- The constraint that a line's token stands for. -/
def ofToken (source : List Char) (t : Token Rule) : Except (ModelError α) (ShapeConstraint α) :=
  match t.parts with
  | subject :: interval :: rest => do
    let subject ← targetOf source subject
    let target ← intervalOf source interval
    let c := match subject with
      | some (name, order) => onDerivative target name order
      | none => onModel target
    optionsOf source c rest
  | _ => failAt source t (.incomplete .constraintLine)

def readLine (line : List Char) : Except (ModelError α) (ShapeConstraint α) := do
  let t ← parseRule .constraintLine line
  ofToken line t

/-- Splits a text at a character; there is one more part than there are such characters. -/
def splitAt (c : Char) : List Char → List (List Char)
  | [] => [[]]
  | d :: ds =>
    if d = c then [] :: splitAt c ds
    else match splitAt c ds with
      | [] => [[d]]
      | part :: parts => (d :: part) :: parts

/-- Moves an error of a line to the line's place in a block. The column stays that in the line. -/
def relocate (offset line : Nat) : ModelError α → ModelError α
  | .parse cause span =>
    .parse cause ⟨offset + span.start, offset + span.stop, line, span.column⟩
  | e => e

/-- Reads the lines of a block, of which the first has the number `number` and begins after `offset`
bytes. -/
def readLines (offset number : Nat) :
    List (List Char) → Except (ModelError α) (List (ShapeConstraint α))
  | [] => .ok []
  | line :: rest => do
    let code := trimBlanks (line.takeWhile (· != '#'))
    let indent := byteLength (line.takeWhile isWhiteSpace)
    let next := offset + byteLength line + 1
    if code.isEmpty then readLines next (number + 1) rest
    else
      match readLine code with
      | .error e => .error (relocate (offset + indent) number e)
      | .ok c =>
        let cs ← readLines next (number + 1) rest
        return c :: cs

/-- Reads a block with one constraint on a line. Empty lines and comments, which start with `#`, are
skipped. -/
def readBlock (limits : Limits) (source : String) :
    Except (ModelError α) (List (ShapeConstraint α)) := do
  limits.checkSource source
  readLines 0 1 (splitAt '\n' source.toList)

end ShapeConstraint

end ModalBounds
