/-!
# Parsing expressions

A `Pattern` recognises a beginning of a text. Choice is ordered and repetition greedy, so a pattern
matches a text in at most one way. A `Grammar` names patterns by rules; a match of a rule becomes a
token, and an attempt at a rule that fails is remembered, so that a syntax error can say what was
expected where the reading got farthest.
-/

namespace ModalBounds

/-- A place in a text: how many bytes and characters come before it, and what comes after. -/
structure Mark where
  offset : Nat
  index : Nat
  rest : List Char
deriving DecidableEq, Repr, Inhabited

def Mark.start (source : List Char) : Mark := ⟨0, 0, source⟩

/-- The place after the next character. -/
def Mark.next? (m : Mark) : Option (Char × Mark) :=
  match m.rest with
  | [] => none
  | c :: cs => some (c, ⟨m.offset + c.utf8Size, m.index + 1, cs⟩)

def Mark.until (m n : Mark) : List Char := m.rest.take (n.index - m.index)

/-- A parsing expression over rules `ρ`. -/
inductive Pattern (ρ : Type) where
  /-- The beginning of the text. -/
  | atStart
  /-- The end of the text. -/
  | atEnd
  /-- One character of a class. -/
  | char (p : Char → Bool)
  /-- Blanks between two parts, as many as there are. -/
  | blank
  | seq (a b : Pattern ρ)
  /-- The second pattern if the first does not match. -/
  | alt (a b : Pattern ρ)
  | opt (a : Pattern ρ)
  | star (a : Pattern ρ)
  /-- Matches nothing, where the pattern does not match. -/
  | notHere (a : Pattern ρ)
  | rule (r : ρ)

namespace Pattern

variable {ρ : Type}

def exactly (c : Char) : Pattern ρ := char (· == c)

/-- Patterns one directly after the other. -/
def tight : Pattern ρ → List (Pattern ρ) → Pattern ρ
  | a, [] => a
  | a, b :: rest => seq a (tight b rest)

/-- Patterns one after the other, with blanks between them. -/
def spaced : Pattern ρ → List (Pattern ρ) → Pattern ρ
  | a, [] => a
  | a, b :: rest => seq a (seq blank (spaced b rest))

/-- The first of some patterns that matches. -/
def firstOf : Pattern ρ → List (Pattern ρ) → Pattern ρ
  | a, [] => a
  | a, b :: rest => alt a (firstOf b rest)

/-- A pattern repeated any number of times, with blanks between. -/
def spacedStar (a : Pattern ρ) : Pattern ρ := opt (seq a (star (seq blank a)))

/-- A pattern repeated at least once, without blanks. -/
def tightPlus (a : Pattern ρ) : Pattern ρ := seq a (star a)

def word (c : Char) (cs : List Char) : Pattern ρ := tight (exactly c) (cs.map exactly)

/-- How deep the pattern is nested. -/
def height : Pattern ρ → Nat
  | atStart => 1
  | atEnd => 1
  | char _ => 1
  | blank => 1
  | seq a b => 1 + max a.height b.height
  | alt a b => 1 + max a.height b.height
  | opt a => 1 + a.height
  | star a => 1 + a.height
  | notHere a => 1 + a.height
  | rule _ => 1

end Pattern

/-- Patterns under names. -/
structure Grammar (ρ : Type) where
  /-- The rules in the order in which messages list them. -/
  rules : List ρ
  body : ρ → Pattern ρ
  /-- Whether the rules inside a rule leave no trace: a match is one token without parts, and no
  attempt within it is remembered. -/
  isAtomic : ρ → Bool
  isBlank : Char → Bool

/-- A match of a rule, with the matches inside it. -/
inductive Token (ρ : Type) where
  | node (rule : ρ) (start stop : Mark) (parts : List (Token ρ))

namespace Token

variable {ρ : Type}

def rule : Token ρ → ρ
  | node r _ _ _ => r

def start : Token ρ → Mark
  | node _ m _ _ => m

def stop : Token ρ → Mark
  | node _ _ n _ => n

def parts : Token ρ → List (Token ρ)
  | node _ _ _ ts => ts

def chars (t : Token ρ) : List Char := t.start.until t.stop

end Token

/-- The rules that failed farthest into the text. -/
structure Attempts (ρ : Type) where
  offset : Nat
  rules : List ρ

namespace Attempts

variable {ρ : Type}

def none : Attempts ρ := ⟨0, []⟩

/-- The number of attempts remembered for a place. -/
def countAt (a : Attempts ρ) (offset : Nat) : Nat := if a.offset = offset then a.rules.length else 0

/-- Remembers that a rule failed. `before` is the number of attempts at the place when the rule was
entered. A single attempt made meanwhile is more precise than the rule, and stays in its place; of
several the rule is the summary. A place farther on takes over, and a place passed is ignored. -/
def add (a : Attempts ρ) (rule : ρ) (offset before : Nat) : Attempts ρ :=
  if a.countAt offset = before + 1 then a
  else if offset = a.offset then ⟨offset, a.rules.take before ++ [rule]⟩
  else if a.offset < offset then ⟨offset, [rule]⟩
  else a

end Attempts

/-- The place after a match and the tokens in it; absent if there is no match. -/
abbrev Match (ρ : Type) := Option (Mark × List (Token ρ))

def byteLength : List Char → Nat
  | [] => 0
  | c :: cs => c.utf8Size + byteLength cs

def skipBlanks (isBlank : Char → Bool) (m : Mark) : Mark :=
  let blanks := m.rest.takeWhile isBlank
  ⟨m.offset + byteLength blanks, m.index + blanks.length, m.rest.dropWhile isBlank⟩

/-- Matches a pattern. Without enough `fuel` there is no answer. Where `silent`, rules leave neither
tokens nor attempts. -/
def Grammar.run {ρ : Type} (g : Grammar ρ) :
    (fuel : Nat) → (silent : Bool) → Pattern ρ → Mark → StateT (Attempts ρ) Option (Match ρ)
  | 0, _, _, _ => fun _ => none
  | fuel + 1, silent, p, m =>
    match p with
    | .atStart => return if m.offset = 0 then some (m, []) else none
    | .atEnd => return if m.rest.isEmpty then some (m, []) else none
    | .char p => return match m.next? with
      | some (c, n) => if p c then some (n, []) else none
      | none => none
    | .blank => return some (skipBlanks g.isBlank m, [])
    | .seq a b => do
      match ← g.run fuel silent a m with
      | none => return none
      | some (n, ts) =>
        match ← g.run fuel silent b n with
        | none => return none
        | some (n, us) => return some (n, ts ++ us)
    | .alt a b => do
      match ← g.run fuel silent a m with
      | none => g.run fuel silent b m
      | some r => return some r
    | .opt a => do
      match ← g.run fuel silent a m with
      | none => return some (m, [])
      | some r => return some r
    | .star a => do
      match ← g.run fuel silent a m with
      | none => return some (m, [])
      | some (n, ts) =>
        match ← g.run fuel silent (.star a) n with
        | none => return some (n, ts)
        | some (n, us) => return some (n, ts ++ us)
    | .notHere a => do
      match ← g.run fuel true a m with
      | none => return some (m, [])
      | some _ => return none
    | .rule r => do
      let before := (← get).countAt m.offset
      match ← g.run fuel (silent || g.isAtomic r) (g.body r) m with
      | none =>
        if !silent then modify (·.add r m.offset before)
        return none
      | some (n, ts) => return some (n, if silent then [] else [.node r m n ts])

/-- What was expected at the place where a text stops to be readable. -/
structure Mismatch (ρ : Type) where
  offset : Nat
  expected : List ρ
deriving Repr

/-- Between two characters every rule is entered at most once, as no rule begins with itself. -/
def Grammar.fuel {ρ : Type} (g : Grammar ρ) (source : List Char) : Nat :=
  (source.length + 2) * g.rules.foldr (fun r n => (g.body r).height + 1 + n) 0

def Grammar.parse {ρ : Type} [BEq ρ] (g : Grammar ρ) (r : ρ) (source : List Char) :
    Except (Mismatch ρ) (Token ρ) :=
  match g.run (g.fuel source) false (.rule r) (Mark.start source) Attempts.none with
  | some (some (_, [t]), _) => .ok t
  | some (_, attempts) => .error ⟨attempts.offset, g.rules.filter attempts.rules.contains⟩
  | none => .error ⟨0, []⟩

end ModalBounds
