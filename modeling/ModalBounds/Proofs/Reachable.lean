import Mathlib
import ModalBounds.Json.Codec
import ModalBounds.Proofs.Constraint.Block
import ModalBounds.Proofs.Tightening.Built

/-!
# The intervals that a caller can have

`ModalInterval.Reachable` and `Interval.Reachable` have one rule for each way to get an interval: by
a constructor, out of a text, by an operation on intervals, or from the evaluation of a model.
Whatever rules are applied, a modal interval is built (`ModalInterval.Reachable.built`) and a plain
one is as its bounds make it (`Interval.Reachable.made`). So there are no two unequal bounds that
are almost equal and no negative zeros in a zero point, and nothing is lost when an interval is
converted or made again (`stable_of_reachable`).
-/

namespace ModalBounds

def ShapeConstraint.intervals {α : Type} (c : ShapeConstraint α) : List (Interval α) :=
  c.target :: c.regionEntries.map (·.2)

/-- The modal intervals that a caller can get. A number among the operands of an operation stands
for its point. -/
inductive ModalInterval.Reachable {α : Type} [Elementary α] [Numeral α] : ModalInterval α → Prop
  | of (lower upper : α) : Reachable (.of lower upper)
  | point (value : α) : Reachable (.point value)
  | undefined : Reachable .undefined
  | toModal (i : Interval α) : Reachable i.toModal
  | ofJson {json : Json} {x : ModalInterval α} : ofJson? json = some x → Reachable x
  | dual {x : ModalInterval α} : Reachable x → Reachable x.dual
  | proper {x : ModalInterval α} : Reachable x → Reachable x.proper
  | neg {x : ModalInterval α} : Reachable x → Reachable (-x)
  | add {x y : ModalInterval α} : Reachable x → Reachable y → Reachable (x + y)
  | sub {x y : ModalInterval α} : Reachable x → Reachable y → Reachable (x - y)
  | innerSub {x y : ModalInterval α} : Reachable x → Reachable y → Reachable (x.innerSub y)
  | mul {x y : ModalInterval α} : Reachable x → Reachable y → Reachable (x * y)
  | div {x y : ModalInterval α} : Reachable x → Reachable y → Reachable (x / y)
  | analyticQuotient {x y : ModalInterval α} : Reachable x → Reachable y →
    Reachable (x.analyticQuotient y)
  | recip {x : ModalInterval α} : Reachable x → Reachable x.recip
  | square {x : ModalInterval α} : Reachable x → Reachable x.square
  | zpow {x : ModalInterval α} (n : ℤ) : Reachable x → Reachable (x.zpow n)
  | pow {x y : ModalInterval α} {exponent : α} : Reachable x →
    x.pow? exponent = some y → Reachable y
  | abs {x : ModalInterval α} : Reachable x → Reachable x.abs
  | exp {x : ModalInterval α} : Reachable x → Reachable x.exp
  | log {x : ModalInterval α} : Reachable x → Reachable x.log
  | sqrt {x : ModalInterval α} : Reachable x → Reachable x.sqrt
  | sin {x : ModalInterval α} : Reachable x → Reachable x.sin
  | cos {x : ModalInterval α} : Reachable x → Reachable x.cos
  | tan {x : ModalInterval α} : Reachable x → Reachable x.tan
  | tanh {x : ModalInterval α} : Reachable x → Reachable x.tanh
  /-- The value of a model. -/
  | value {e : Expr α} {p : Program α} {env : Environment α} {before : NodeIntervals α}
    {x : ModalInterval α} :
      Program.compile e = .ok p → (∀ v y, env v = some y → Reachable y) →
      (∀ (n : ℕ) y, before[n]? = some y → Reachable y) → (p.run env before).1 = .ok x → Reachable x
  /-- What is recorded for a node of a model. -/
  | node {e : Expr α} {p : Program α} {env : Environment α} {before : NodeIntervals α} {n : ℕ}
    {x : ModalInterval α} :
      Program.compile e = .ok p → (∀ v y, env v = some y → Reachable y) →
      (∀ (n : ℕ) y, before[n]? = some y → Reachable y) →
      (p.run env before).2.recorded[n]? = some x → Reachable x
  | seed {k : OccurrenceTree α} {ranges : Ranges α} {state : WorkingRanges α}
    {x : ModalInterval α} :
      (∀ (v : String) y, ranges[v]? = some y → Reachable y) →
      WorkingRanges.seed k ranges = .ok state →
      state.Holds x → Reachable x
  | dualize {model : Expr α} {k : OccurrenceTree α} {v : String} {state state' : WorkingRanges α}
    {monotonic : Bool}
      {x : ModalInterval α} : (∀ y, state.Holds y → Reachable y) →
      state.dualize model k v = .ok (state', monotonic) → state'.Holds x → Reachable x
  | collapseToMid {k : OccurrenceTree α} {v : String} {state : WorkingRanges α}
    {x : ModalInterval α} :
      (∀ y, state.Holds y → Reachable y) → (state.collapseToMid k v).Holds x → Reachable x
  /-- The bound of a model. -/
  | bound {approximation : Approximation} {model : Expr α} {ranges : Ranges α} {x : ModalInterval α}
      {nodes : NodeIntervals α} : (∀ (v : String) y, ranges[v]? = some y → Reachable y) →
      approximateNodes approximation model ranges = .ok (x, nodes) → Reachable x
  /-- The bound of a node of a model. -/
  | nodeBound {approximation : Approximation} {model : Expr α} {ranges : Ranges α}
    {x y : ModalInterval α}
      {nodes : NodeIntervals α} {n : ℕ} : (∀ (v : String) y, ranges[v]? = some y → Reachable y) →
      approximateNodes approximation model ranges = .ok (x, nodes) →
      nodes[n]? = some y → Reachable y

/-- The plain intervals that a caller can get. -/
inductive Interval.Reachable {α : Type} [Elementary α] [Numeral α] : Interval α → Prop
  | of {lower upper : α} {i : Interval α} : Interval.of lower upper = .ok i → Reachable i
  | point (value : α) : Reachable (.point value)
  | unbounded : Reachable .unbounded
  | ofJson {json : Json} {i : Interval α} : ofJson? json = some i → Reachable i
  | ofCollectionJson {json : Json} {ranges : Collection α} {name : String} {i : Interval α} :
      Collection.ofJson? json = some ranges → ranges[name]? = some i → Reachable i
  | ofConstraintJson {json : Json} {c : ShapeConstraint α} {i : Interval α} :
      ShapeConstraint.ofJson? json = some c → i ∈ c.intervals → Reachable i
  | ofLine {line : List Char} {c : ShapeConstraint α} {i : Interval α} :
      ShapeConstraint.readLine line = .ok c → i ∈ c.intervals → Reachable i
  | ofBlock {limits : Limits} {source : String} {cs : List (ShapeConstraint α)}
    {c : ShapeConstraint α}
      {i : Interval α} : ShapeConstraint.readBlock limits source = .ok cs → c ∈ cs →
      i ∈ c.intervals → Reachable i
  | toInterval {x : ModalInterval α} : x.Reachable → Reachable x.toInterval

/-! ### Modal intervals -/

/-- Each rule makes a built interval of built ones. -/
theorem ModalInterval.Reachable.built {α : Type} [Elementary α] [Numeral α] {x : ModalInterval α}
    (h : x.Reachable) : x.Built := by
  induction h with
  | of | point | toModal | neg | add | sub | innerSub | exp | sqrt | tanh => exact .of ..
  | undefined => exact .undefined
  | ofJson h =>
    obtain ⟨_, -, h⟩ := Option.bind_eq_some_iff.1 h
    cases h
    exact .of ..
  | dual _ ih => exact ih.dual
  | proper _ ih => exact ih.proper
  | mul | div | analyticQuotient => exact built_mul ..
  | recip => exact built_recip _
  | square => exact built_zpow _ 2
  | zpow n => exact built_zpow _ n
  | pow _ h => exact built_of_pow? h
  | abs | sin | cos | tan => exact built_onProper ..
  | log => exact built_log _
  | value hp _ _ h _ hbefore => exact (Program.built_of_outcome hp _ hbefore).1 _ h
  | node hp _ _ h _ hbefore => exact (Program.built_of_outcome hp _ hbefore).2 _ _ h
  | seed _ h hx hranges => exact WorkingRanges.AllBuilt.seed hranges h _ hx
  | dualize _ h hx hstate => exact WorkingRanges.AllBuilt.dualize hstate h _ hx
  | collapseToMid _ hx hstate => exact WorkingRanges.AllBuilt.collapseToMid hstate _ _ _ hx
  | bound _ h => exact (built_of_approximateNodes h).1
  | nodeBound _ h hx => exact (built_of_approximateNodes h).2 _ _ hx

/-! ### Plain intervals -/

/-- An interval as its bounds make it, undefined or not. -/
def Interval.Made (i : Interval Float) : Prop := Interval.of i.lower i.upper = .ok i

namespace Interval.Made

variable {i : Interval Float}

theorem iff_collapse :
    i.Made ↔ collapse i.lower i.upper = (i.lower, i.upper) ∧ ¬ i.upper < i.lower := by
  unfold Made
  constructor
  · intro h
    have hcollapse := (bounds_of_of h).symm
    refine ⟨hcollapse, fun hlt => ?_⟩
    rw [Interval.of, hcollapse] at h
    dsimp only at h
    rw [if_pos hlt] at h
    cases h
  · rintro ⟨hcollapse, hlt⟩
    rw [Interval.of, hcollapse]
    exact if_neg hlt

theorem collapsed (h : i.Made) : Double.Collapsed i.lower i.upper :=
  .of_collapse_eq (iff_collapse.1 h).1

theorem lower_le_upper (h : i.Made) (hdefined : i.isUndefined = false) : i.lower ≤ i.upper := by
  obtain ⟨hlower, hupper⟩ := Bool.or_eq_false_iff.1 hdefined
  exact Double.le_of_not_lt hlower hupper (iff_collapse.1 h).2

theorem toModal_eq (h : i.Made) : i.toModal = ⟨i.lower, i.upper⟩ := by
  rw [toModal, ModalInterval.of, h.collapsed.collapse_eq]

theorem toInterval_toModal (h : i.Made) : i.toModal.toInterval = i := by
  have hproper : (⟨i.lower, i.upper⟩ : ModalInterval Float).proper = ⟨i.lower, i.upper⟩ := by
    rw [ModalInterval.proper, if_neg]
    simpa [ModalInterval.isImproper] using (iff_collapse.1 h).2
  rw [h.toModal_eq, ModalInterval.toInterval, hproper]

/-- The bounds of a point are not compared when it is made, but they are one number. -/
theorem point (value : Float) : (Interval.point value).Made := by
  refine iff_collapse.2 ⟨Double.collapse_collapse value value, ?_⟩
  have hpoint : (Interval.point value).upper = (Interval.point value).lower := by
    unfold Interval.point collapse
    split_ifs <;> rfl
  rw [hpoint]
  exact Double.lt_irrefl _

theorem unbounded : (Interval.unbounded : Interval Float).Made := by
  unfold Made
  rfl

theorem toInterval {x : ModalInterval Float} (hx : x.Built) : x.toInterval.Made := by
  refine iff_collapse.2 ⟨hx.proper.collapse_eq, ?_⟩
  rw [ModalInterval.toInterval, ModalInterval.proper]
  split
  · -- exchanged bounds are in order as those of an improper interval are not
    rename_i h
    exact Double.lt_asymm (by simpa [ModalInterval.isImproper] using h)
  · rename_i h
    simpa [ModalInterval.isImproper] using h

theorem ofJson? {json : Json} (h : Interval.ofJson? json = some i) : i.Made := by
  obtain ⟨_, -, h⟩ := Option.bind_eq_some_iff.1 h
  exact of_bounds_of_of (toOption_eq_some.1 h)

end Interval.Made

/-! ### Ranges and constraints -/

def Collection.AllMade (ranges : Collection Float) :
    Prop := ∀ (v : String) i, ranges[v]? = some i → i.Made

namespace Collection.AllMade

variable {ranges ranges' : Collection Float}

theorem empty : Collection.AllMade ∅ := fun v i h => by simp at h

theorem insert (h : ranges.AllMade) {i : Interval Float} (hi : i.Made) (v : String) :
    Collection.AllMade (Std.ExtTreeMap.insert ranges v i) := by
  intro w j hj
  rw [Std.ExtTreeMap.getElem?_insert] at hj
  split at hj
  · cases hj
    exact hi
  · exact h w j hj

theorem ofFields? {fields : List (String × Json)} (h : ranges.AllMade)
    (hfields : Collection.ofFields? ranges fields = some ranges') : ranges'.AllMade := by
  induction fields generalizing ranges with
  | nil =>
    cases hfields
    exact h
  | cons field fields ih =>
    obtain ⟨i, hi, hfields⟩ := Option.bind_eq_some_iff.1 hfields
    exact ih (h.insert (.ofJson? hi) field.1) hfields

theorem ofJson? {json : Json} (h : Collection.ofJson? json = some ranges) : ranges.AllMade := by
  cases json with
  | object fields => exact empty.ofFields? h
  | _ => cases h

end Collection.AllMade

namespace ShapeConstraint

variable {c : ShapeConstraint Float}

theorem made_of_mem_intervals (htarget : c.target.Made)
    (hregions : ∀ p ∈ c.regionEntries, p.2.Made) : ∀ i ∈ c.intervals, i.Made := by
  rw [intervals, List.forall_mem_cons, List.forall_mem_map]
  exact ⟨htarget, hregions⟩

theorem made_of_ofJson? {json : Json} (h : ofJson? json = some c) : ∀ i ∈ c.intervals, i.Made := by
  obtain ⟨fields, -, h⟩ := Option.bind_eq_some_iff.1 h
  split at h
  · obtain ⟨target, htarget, h⟩ := Option.bind_eq_some_iff.1 h
    obtain ⟨weight, -, h⟩ := Option.bind_eq_some_iff.1 h
    obtain ⟨name, -, h⟩ := Option.bind_eq_some_iff.1 h
    obtain ⟨derivations, -, h⟩ := Option.bind_eq_some_iff.1 h
    obtain ⟨regions, hregions, h⟩ := Option.bind_eq_some_iff.1 h
    cases h
    refine made_of_mem_intervals (.ofJson? htarget) fun p hp => ?_
    obtain ⟨r, hr, hmem⟩ := mem_regionEntries.1 hp
    obtain rfl : regions = some r := hr
    unfold Json.optional? at hregions
    split at hregions
    · cases hregions
    · cases hregions
    · obtain ⟨_, hregions, hr⟩ := Option.map_eq_some_iff.1 hregions
      cases hr
      exact Collection.AllMade.ofJson? hregions p.1 p.2 hmem
  · cases h

theorem made_of_readLine {line : List Char} (h : readLine line = .ok c) :
    ∀ i ∈ c.intervals, i.Made :=
  have hread := readFrom_of_readLine h
  made_of_mem_intervals hread.target.of_bounds fun p hp => (hread.regions p hp).2.of_bounds

theorem made_of_readBlock {limits : Limits} {source : String} {cs : List (ShapeConstraint Float)}
    (h : readBlock limits source = .ok cs) (hc : c ∈ cs) : ∀ i ∈ c.intervals, i.Made := by
  obtain ⟨_, -, h⟩ := bind_eq_ok.1 h
  obtain ⟨line, -, hline⟩ := exists_of_forall₂ (readLines_eq_ok.1 h).flip c hc
  exact made_of_readLine hline

end ShapeConstraint

/-- A plain interval from any source is as its bounds make it. -/
theorem Interval.Reachable.made {i : Interval Float} (h : i.Reachable) : i.Made := by
  cases h with
  | of h => exact of_bounds_of_of h
  | point value => exact .point value
  | unbounded => exact .unbounded
  | ofJson h => exact .ofJson? h
  | ofCollectionJson h hi => exact Collection.AllMade.ofJson? h _ _ hi
  | ofConstraintJson h hi => exact ShapeConstraint.made_of_ofJson? h i hi
  | ofLine h hi => exact ShapeConstraint.made_of_readLine h i hi
  | ofBlock h hc hi => exact ShapeConstraint.made_of_readBlock h hc i hi
  | toInterval hx => exact .toInterval hx.built

/-! ### Both -/

/-- The bounds of any interval that can be got are as collapsing leaves them, and those of a plain
one are in order unless one is undefined. So an interval is the same again when it is made from its
own bounds, and a plain one also when it is read as a modal one and back. -/
theorem stable_of_reachable (x : ModalInterval Float) (i : Interval Float) :
    (x.Reachable → Double.Collapsed x.lower x.upper ∧ ModalInterval.of x.lower x.upper = x) ∧
    (i.Reachable → Double.Collapsed i.lower i.upper ∧ (i.isUndefined = false → i.lower ≤ i.upper) ∧
      i.toModal.toInterval = i ∧ Interval.of i.lower i.upper = .ok i) :=
  ⟨fun h => ⟨.of_collapse_eq h.built.collapse_eq, h.built.of_bounds⟩,
    fun h => ⟨h.made.collapsed, h.made.lower_le_upper, h.made.toInterval_toModal, h.made⟩⟩

/-- The improper interval `|[1, -1]|`, and a target that noise around zero collapses to. -/
theorem stable_of_reachable_nearZero :
    (⟨1, 0⟩ : ModalInterval Float).Reachable ∧ (⟨0, 0⟩ : Interval Float).Reachable ∧
    ModalInterval.of (1 : Float) 0 = ⟨1, 0⟩ ∧
    (⟨0, 0⟩ : Interval Float).toModal.toInterval = ⟨0, 0⟩ ∧
    Interval.of (0 : Float) 0 = .ok ⟨0, 0⟩ := by
  have hx : (ModalInterval.of (-1 : Float) 1).dual.abs = ⟨1, 0⟩ := rfl
  have hreachable : (⟨1, 0⟩ : ModalInterval Float).Reachable := by
    rw [← hx]
    exact .abs (.dual (.of (-1) 1))
  have hc : ShapeConstraint.readLine "f in [-0.0000000000001 .. 0.0000000000001]".toList =
      .ok (.onModel (⟨0, 0⟩ : Interval Float)) := toOption_eq_some.1 (by decide +kernel)
  have hzero : (⟨0, 0⟩ : Interval Float).Reachable :=
    .ofLine hc (by simp [ShapeConstraint.intervals, ShapeConstraint.onModel])
  obtain ⟨hmodal, hplain⟩ := stable_of_reachable ⟨1, 0⟩ ⟨0, 0⟩
  obtain ⟨-, -, hback, hof⟩ := hplain hzero
  exact ⟨hreachable, hzero, (hmodal hreachable).2, hback, hof⟩

end ModalBounds
