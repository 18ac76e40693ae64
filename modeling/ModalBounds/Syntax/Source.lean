import ModalBounds.Error

/-!
# Places in a source

Tokens count bytes and characters; a reader of a message wants lines and columns.
-/

namespace ModalBounds

/-- The line and column of the character after `offset` bytes, both counted from one. -/
def lineColumn (offset : Nat) (source : List Char) : Nat × Nat :=
  go offset source 1 1
where
  go (offset : Nat) : List Char → (line column : Nat) → Nat × Nat
  | [], line, column => (line, column)
  | c :: cs, line, column =>
    if offset = 0 then (line, column)
    else if c = '\n' then go (offset - c.utf8Size) cs (line + 1) 1
    else go (offset - c.utf8Size) cs line (column + 1)

/-- The stretch of a source between two byte offsets. -/
def Span.between (source : List Char) (start stop : Nat) : Span :=
  let (line, column) := lineColumn start source
  ⟨start, stop, line, column⟩

def Token.span {ρ : Type} (source : List Char) (t : Token ρ) : Span :=
  Span.between source t.start.offset t.stop.offset

variable {α : Type}

def failAt {β : Type} (source : List Char) (t : Token Rule) (cause : SyntaxError α) :
    Except (ModelError α) β :=
  .error (.parse cause (t.span source))

/-- Reads a source as a rule of the grammar. -/
def parseRule (rule : Rule) (source : List Char) : Except (ModelError α) (Token Rule) :=
  match modelGrammar.parse rule source with
  | .ok t => .ok t
  | .error e => .error (.parse (.expected e.expected) (Span.between source e.offset e.offset))

/-- The name in a token of a variable, without quotes. -/
def nameOf? (t : Token Rule) : Option String :=
  match t.parts with
  | [.node .quotedIdentifier _ _ [name]] => some (String.ofList name.chars)
  | [name] => some (String.ofList name.chars)
  | _ => none

end ModalBounds
