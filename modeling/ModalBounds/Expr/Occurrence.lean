import ModalBounds.Expr.Basic

/-!
# Telling the occurrences of a variable apart

Interval arithmetic treats every occurrence of a variable as an unknown of its own. `OccurrenceTree`
makes that explicit: the `i`-th occurrence of `x` becomes the variable `x_i`, counted from one, an
occurrence below a node before the node. Where that name is taken, underscores are appended.
-/

namespace ModalBounds

/-- An expression whose occurrences of variables have names of their own. -/
structure OccurrenceTree (α : Type) where
  tree : Expr α
  /-- The names of the occurrences of each variable, in the order in which the variables occur. -/
  names : List (String × List String)

/-- The names given so far, while the occurrences of an expression are renamed. -/
structure Renaming where
  used : List String
  names : List (String × List String)

namespace Renaming

/-- Appends underscores to a name until it is not used, `limit` of them at most. -/
def padUnused (used : List String) : (limit : Nat) → String → String
  | 0, name => name
  | limit + 1, name => if name ∈ used then padUnused used limit (name ++ "_") else name

/-- The name with the fewest underscores appended that is not used. Of one more candidates than
there are used names, one is free. -/
def freshName (used : List String) (name : String) : String := padUnused used used.length name

def namesOf (names : List (String × List String)) (owner : String) : List String :=
  ((names.find? (·.1 == owner)).map (·.2)).getD []

/-- Adds a name to those of a variable, which comes last if it is new. -/
def addName (owner name : String) : List (String × List String) → List (String × List String)
  | [] => [(owner, [name])]
  | (v, vs) :: rest =>
    if v = owner then (v, vs ++ [name]) :: rest else (v, vs) :: addName owner name rest

def nameOccurrence (owner : String) : StateM Renaming String := do
  let state ← get
  let index := (namesOf state.names owner).length + 1
  let name := freshName state.used (owner ++ "_" ++ toString index)
  set (⟨name :: state.used, addName owner name state.names⟩ : Renaming)
  return name

def renameSymbol {α : Type} : Symbol α → StateM Renaming (Symbol α)
  | .var name weight => do
    let name ← nameOccurrence name
    return .var name weight
  | s => return s

mutual

/-- Renames the variables of an expression, those below a node first. -/
def rename {α : Type} : Expr α → StateM Renaming (Expr α)
  | .node s args => do
    let args ← renameAll args
    let s ← renameSymbol s
    return .node s args

def renameAll {α : Type} : List (Expr α) → StateM Renaming (List (Expr α))
  | [] => return []
  | a :: rest => do
    let a ← rename a
    let rest ← renameAll rest
    return a :: rest

end

end Renaming

namespace OccurrenceTree

variable {α : Type}

/-- Gives every occurrence of a variable a name of its own, which no variable of the expression
has. -/
def of (e : Expr α) : OccurrenceTree α :=
  let (tree, state) := (Renaming.rename e).run ⟨e.variableNames, []⟩
  ⟨tree, state.names⟩

/-- The variables in the order in which they first occur. -/
def variableNames (k : OccurrenceTree α) : List String := k.names.map (·.1)

def occurrenceNames (k : OccurrenceTree α) (name : String) : List String :=
  Renaming.namesOf k.names name

end OccurrenceTree

end ModalBounds
