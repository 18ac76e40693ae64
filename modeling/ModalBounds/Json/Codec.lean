import ModalBounds.Json.Basic
import ModalBounds.Tightening.Estimator

/-!
# Intervals and constraints as JSON

Records are objects with their fields in order; they are also read from the list of their fields.
Fields that have a default may be left out. An infinite or undefined number is written as `null`,
which is read as no number.
-/

namespace ModalBounds

namespace Json

/-- The fields of a record in order, absent ones as nothing: from an object, whose other fields are
ignored, or from a list, which may stop early but not go on. -/
def record? (names : List String) : Json → Option (List (Option Json))
  | object fields => some (names.map (field? fields))
  | array items =>
    if items.length ≤ names.length then
      some (items.map some ++ List.replicate (names.length - items.length) none)
    else none
  | _ => none

/-- A field that may be null or absent. -/
def optional? {β : Type} (decode : Json → Option β) : Option Json → Option (Option β)
  | none => some none
  | some null => some none
  | some value => (decode value).map some

/-- A field that has a default when absent. -/
def withDefault? {β : Type} (decode : Json → Option β) (default : β) : Option Json → Option β
  | none => some default
  | some value => decode value

def string? : Json → Option String
  | string s => some s
  | _ => none

/-- A whole number of 32 bits. -/
def nat32? : Json → Option Nat
  | integer n => if 0 ≤ n && n < 4294967296 then some n.toNat else none
  | _ => none

variable {α : Type} [Scalar α] [Numeral α]

/-- A number, rounded to the nearest of its type. -/
def scalar? : Json → Option α
  | integer n => some (Numeral.ofDecimal ⟨decide (n < 0), n.natAbs, 0⟩)
  | decimal d => some (Numeral.ofDecimal d)
  | _ => none

/-- A finite number as its shortest decimal. -/
def ofScalar (x : α) : Json :=
  match Numeral.toDecimal? NumberFormat.json.tie x with
  | some d => decimal d
  | none => null

def bounds? (value : Json) : Option (α × α) := do
  match ← value.record? ["lower", "upper"] with
  | [some lower, some upper] => return (← lower.scalar?, ← upper.scalar?)
  | _ => none

def ofBounds (lower upper : α) : Json :=
  object [("lower", ofScalar lower), ("upper", ofScalar upper)]

end Json

variable {α : Type} [Scalar α] [Numeral α]

namespace ModalInterval

def toJson (x : ModalInterval α) : Json := Json.ofBounds x.lower x.upper

def ofJson? (value : Json) : Option (ModalInterval α) := do
  let (lower, upper) ← value.bounds?
  return of lower upper

end ModalInterval

namespace Interval

def toJson (x : Interval α) : Json := Json.ofBounds x.lower x.upper

/-- Bounds that are not in order are refused. -/
def ofJson? (value : Json) : Option (Interval α) := do
  let (lower, upper) ← value.bounds?
  (of lower upper).toOption

end Interval

namespace Collection

def toJson (c : Collection α) : Json :=
  .object (c.toList.map fun (name, x) => (name, x.toJson))

def ofFields? (c : Collection α) : List (String × Json) → Option (Collection α)
  | [] => some c
  | (name, value) :: rest => do
    let x ← Interval.ofJson? value
    ofFields? (c.insert name x) rest

def ofJson? : Json → Option (Collection α)
  | .object fields => ofFields? ∅ fields
  | _ => none

end Collection

namespace ShapeConstraint

def toJson (c : ShapeConstraint α) : Json :=
  .object <|
    [("target", c.target.toJson), ("weight", Json.ofScalar c.weight)]
      ++ (c.variableName.map fun name => ("variable", Json.string name)).toList
      ++ [("derivations", Json.integer c.derivations)]
      ++ (c.regions.map fun regions => ("regions", Collection.toJson regions)).toList

def ofJson? (value : Json) : Option (ShapeConstraint α) := do
  match ← value.record? ["target", "weight", "variable", "derivations", "regions"] with
  | [some target, weight, name, derivations, regions] =>
    return {
      target := ← Interval.ofJson? target
      weight := ← Json.withDefault? Json.scalar? 1 weight
      variableName := ← Json.optional? Json.string? name
      derivations := ← Json.withDefault? Json.nat32? 0 derivations
      regions := ← Json.optional? Collection.ofJson? regions }
  | _ => none

end ShapeConstraint

namespace Approximation

def name : Approximation → String
  | outer => "outer"
  | inner => "inner"

def ofName? : String → Option Approximation
  | "outer" => some outer
  | "inner" => some inner
  | _ => none

def toJson (a : Approximation) : Json := .string a.name

/-- A name, or an object with the name as its only field and nothing in it. -/
def ofJson? : Json → Option Approximation
  | .string name => ofName? name
  | .object [(name, .null)] => ofName? name
  | _ => none

end Approximation

end ModalBounds
