import Std.Data.ExtTreeMap
import ModalBounds.Error

/-!
# Plain intervals

The intervals that callers hand in and get back: the lower bound is at most the upper one, unless a
bound is undefined. Ranges go by the names of variables, in their order: a `Collection` of plain
intervals, as callers give them, and the modal `Ranges` that a model is evaluated over.
-/

namespace ModalBounds

/-- An interval with ordered bounds, which the functions below see to. -/
structure Interval (α : Type) where
  lower : α
  upper : α
deriving BEq, Repr, Inhabited

namespace Interval

variable {α : Type} [Scalar α]

/-- The interval of two bounds, if they are in order. Bounds that are almost equal become one. -/
def of (lower upper : α) : Except (ModelError α) (Interval α) :=
  let (lower, upper) := collapse lower upper
  if upper < lower then .error (.invalidInterval lower upper) else .ok ⟨lower, upper⟩

def point (value : α) : Interval α :=
  let (lower, upper) := collapse value value
  ⟨lower, upper⟩

def unbounded : Interval α := ⟨-Scalar.infinity, Scalar.infinity⟩

def mid (x : Interval α) : α := (x.lower + x.upper) / ((2 : Nat) : α)

def width (x : Interval α) : α := x.upper - x.lower

def isUndefined (x : Interval α) : Bool := Scalar.isNaN x.lower || Scalar.isNaN x.upper

def isFinite (x : Interval α) : Bool := Scalar.isFinite x.lower && Scalar.isFinite x.upper

def containsValue (x : Interval α) (value : α) : Bool :=
  decide (x.lower ≤ value) && decide (value ≤ x.upper)

def contains (x y : Interval α) : Bool := decide (x.lower ≤ y.lower) && decide (y.upper ≤ x.upper)

def isSubset (x y : Interval α) : Bool := y.contains x

def toModal (x : Interval α) : ModalInterval α := ModalInterval.of x.lower x.upper

def text [Numeral α] (x : Interval α) : String := boundsText x.lower x.upper

end Interval

/-- The plain interval with the same values. -/
def ModalInterval.toInterval {α : Type} [Scalar α] (x : ModalInterval α) : Interval α :=
  ⟨x.proper.lower, x.proper.upper⟩

/-! ### Named intervals -/

/-- A map from names; two maps with the same entries are equal. -/
abbrev NameMap (β : Type) := Std.ExtTreeMap String β

/-- The plain ranges of some variables. -/
abbrev Collection (α : Type) := NameMap (Interval α)

/-- The working ranges of some variables. -/
abbrev Ranges (α : Type) := NameMap (ModalInterval α)

/-- The entries of both maps; where both have a name, the second one's entry counts. -/
def NameMap.merge {β : Type} (a b : NameMap β) : NameMap β :=
  a.mergeWith (fun _ _ y => y) b

def Collection.toRanges {α : Type} [Scalar α] (c : Collection α) : Ranges α :=
  c.map fun _ x => x.toModal

end ModalBounds
