import ModalBounds.Json.Codec
import ModalBounds.Proofs.Constraint.RoundTrip
import ModalBounds.Proofs.Interval.Built
import ModalBounds.Proofs.Json.Text

/-!
# Intervals and constraints are read back from JSON

What was written as JSON is read as the same value exactly if all of its numbers are finite
(`restored_from_text`). An infinite number is written as `null`, so a constraint that is open to one
side does not come back.
-/

namespace ModalBounds

/-! ### Numbers -/

namespace Json

/-- A number is read from the text that it is written as. -/
def Rereads (x : Float) : Prop := (read? (ofScalar x).compact).bind scalar? = some x

instance (x : Float) : Decidable (Rereads x) := inferInstanceAs (Decidable (_ = some x))

theorem ofScalar_of_isFinite {x : Float} (h : x.isFinite = true) : ∃ d, ofScalar x = decimal d := by
  have hdecimal : Numeral.toDecimal? NumberFormat.json.tie x =
      some (Double.shortest .even (Double.isNegative x) (Double.significand x) (Double.scale x)) :=
    if_pos h
  exact ⟨_, by rw [ofScalar, hdecimal]⟩

theorem ofScalar_of_not_isFinite {x : Float} (h : x.isFinite = false) : ofScalar x = null := by
  have hdecimal : Numeral.toDecimal? NumberFormat.json.tie x = none := if_neg (by simp [h])
  rw [ofScalar, hdecimal]

theorem echo_ofScalar {x : Float} (h : x.isFinite = true → Rereads x) :
    ∃ j, (ofScalar x).echo = some j ∧ j.scalar? = if x.isFinite then some x else none := by
  cases hx : x.isFinite with
  | false => exact ⟨null, by rw [ofScalar_of_not_isFinite hx]; rfl, rfl⟩
  | true =>
    obtain ⟨d, hd⟩ := ofScalar_of_isFinite hx
    have hread := h hx
    rw [Rereads, hd, read?_decimal, Option.bind_eq_some_iff] at hread
    obtain ⟨j, hj, hscalar⟩ := hread
    exact ⟨j, by rw [hd, echo, hj], by rw [hscalar, if_pos rfl]⟩

theorem echo_ofBounds {l u : Float} (h : ∀ x ∈ [l, u], x.isFinite = true → Rereads x) :
    ∃ j, (ofBounds l u).echo = some j ∧ j.bounds? = if l.isFinite && u.isFinite then some (l, u)
      else none := by
  rw [List.forall_mem_cons, List.forall_mem_singleton] at h
  obtain ⟨a, ha, hl⟩ := echo_ofScalar h.1
  obtain ⟨b, hb, hu⟩ := echo_ofScalar h.2
  refine ⟨object [("lower", a), ("upper", b)], ?_, ?_⟩
  · rw [ofBounds, echo]
    simp only [echoFields, ha, hb]
    rfl
  · have hrecord : (object [("lower", a), ("upper", b)]).record? ["lower", "upper"] = some [some a,
        some b] := rfl
    rw [bounds?, hrecord]
    show (do return (← a.scalar?, ← b.scalar?)) = _
    rw [hl, hu]
    cases l.isFinite <;> cases u.isFinite <;> rfl

end Json

/-! ### Intervals -/

theorem Interval.echo_toJson {x : Interval Float} (hx : Interval.of x.lower x.upper = .ok x)
    (hread : ∀ y ∈ [x.lower, x.upper], y.isFinite = true → Json.Rereads y) :
    ∃ j, x.toJson.echo = some j ∧ Interval.ofJson? j = if x.isFinite then some x else none := by
  obtain ⟨j, hj, hbounds⟩ := Json.echo_ofBounds hread
  refine ⟨j, hj, ?_⟩
  have hfinite : x.isFinite = (x.lower.isFinite && x.upper.isFinite) := rfl
  rw [Interval.ofJson?, hbounds, hfinite]
  split
  · show (Interval.of x.lower x.upper).toOption = _
    rw [hx]
    rfl
  · rfl

theorem ModalInterval.echo_toJson {x : ModalInterval Float} (hx : x.Built)
    (hread : ∀ y ∈ [x.lower, x.upper], y.isFinite = true → Json.Rereads y) :
    ∃ j, x.toJson.echo = some j ∧ ModalInterval.ofJson? j = if x.isFinite then some x
      else none := by
  obtain ⟨j, hj, hbounds⟩ := Json.echo_ofBounds hread
  refine ⟨j, hj, ?_⟩
  have hfinite : x.isFinite = (x.lower.isFinite && x.upper.isFinite) := rfl
  rw [ModalInterval.ofJson?, hbounds, hfinite]
  split
  · show some (ModalInterval.of x.lower x.upper) = _
    rw [hx.of_bounds]
  · rfl

/-! ### Collections -/

namespace Collection

theorem echoFields_toJson {entries : List (String × Interval Float)}
    (hnormal : ∀ p ∈ entries, Interval.of p.2.lower p.2.upper = .ok p.2)
    (hread : ∀ p ∈ entries, ∀ y ∈ [p.2.lower, p.2.upper], y.isFinite = true → Json.Rereads y) :
    ∃ fields, Json.echoFields (entries.map fun p => (p.1, p.2.toJson)) = some fields ∧
      ∀ c : Collection Float,
      ofFields? c fields =
        if entries.all (·.2.isFinite) then some (entries.foldl (fun c p => c.insert p.1 p.2) c)
        else none := by
  induction entries with
  | nil => exact ⟨[], rfl, fun c => rfl⟩
  | cons p entries ih =>
    rw [List.forall_mem_cons] at hnormal hread
    obtain ⟨fields, hfields, hof⟩ := ih hnormal.2 hread.2
    obtain ⟨j, hj, hinterval⟩ := Interval.echo_toJson hnormal.1 hread.1
    refine ⟨(p.1, j) :: fields, ?_, fun c => ?_⟩
    · rw [List.map_cons, Json.echoFields, hj, hfields]
      rfl
    · rw [ofFields?, hinterval, List.all_cons]
      cases p.2.isFinite with
      | false => rfl
      | true => exact hof (c.insert p.1 p.2)

theorem echo_toJson {c : Collection Float}
    (hnormal : ∀ p ∈ c.toList, Interval.of p.2.lower p.2.upper = .ok p.2)
    (hread : ∀ p ∈ c.toList, ∀ y ∈ [p.2.lower, p.2.upper], y.isFinite = true → Json.Rereads y) :
    ∃ fields, c.toJson.echo = some (.object fields) ∧
      ofFields? ∅ fields = if c.toList.all (·.2.isFinite) then some c else none := by
  obtain ⟨fields, hfields, hof⟩ := echoFields_toJson hnormal hread
  refine ⟨fields, ?_, ?_⟩
  · show (Json.echoFields _).map Json.object = _
    rw [hfields]
    rfl
  · rw [hof, ShapeConstraint.foldl_insert_toList]

end Collection

/-! ### Constraints -/

namespace ShapeConstraint

/-- The fields of a constraint that are written; a missing one is absent. -/
def writtenFields (target weight : Json) (name : Option String) (derivations : Json)
    (regions : Option Json) : List (String × Json) :=
  [("target", target), ("weight", weight)] ++
    (name.map fun name => ("variable", Json.string name)).toList
    ++ [("derivations", derivations)] ++ (regions.map fun regions => ("regions", regions)).toList

theorem toJson_eq (c : ShapeConstraint Float) : c.toJson =
    .object (writtenFields c.target.toJson (Json.ofScalar c.weight) c.variableName
      (.integer c.derivations)
      (c.regions.map Collection.toJson)) := by
  unfold toJson
  cases c.regions <;> rfl

theorem record?_writtenFields (target weight : Json) (name : Option String) (derivations : Json)
    (regions : Option Json) :
    (Json.object (writtenFields target weight name derivations regions)).record?
      ["target", "weight", "variable", "derivations", "regions"] =
        some [some target, some weight, name.map Json.string, some derivations, regions] := by
  cases name <;> cases regions <;> rfl

theorem echo_writtenFields {target target' weight weight' : Json} {name : Option String} {n : ℤ}
    {regions regions' : Option Json} (htarget : target.echo = some target')
    (hweight : weight.echo = some weight')
    (hregions : Option.Rel (fun a b => a.echo = some b) regions regions') :
    (Json.object (writtenFields target weight name (.integer n) regions)).echo =
      some (.object (writtenFields target' weight' name (.integer n) regions')) := by
  have hname (name : String) : (Json.string name).echo = some (.string name) := rfl
  have hn : (Json.integer n).echo = some (.integer n) := rfl
  rw [Json.echo]
  cases name <;> cases hregions <;> simp_all [writtenFields, Json.echoFields]

theorem nat32?_integer {n : ℕ} (h : n < 4294967296) : (Json.integer n).nat32? = some n := by
  show (if (decide (0 ≤ (n : ℤ)) && decide ((n : ℤ) < 4294967296)) = true then some (n : ℤ).toNat
      else none) = some n
  rw [if_pos (by simp; omega), Int.toNat_natCast]

theorem ReadFrom.derivations_lt {line : List Char} {c : ShapeConstraint Float}
    (h : c.ReadFrom line) : c.derivations < 4294967296 := by
  rcases h.subject with ⟨-, h⟩ | ⟨-, h⟩
  · omega
  · simp only [List.mem_cons, List.not_mem_nil, or_false] at h
    omega

theorem all_isFinite_numbers (c : ShapeConstraint Float) : c.numbers.all Float.isFinite =
    (c.weight.isFinite && c.target.isFinite && c.regionEntries.all (·.2.isFinite)) := by
  have hregion (p : String × Interval Float) : [p.2.lower, p.2.upper].all Float.isFinite =
      p.2.isFinite := by
    rw [List.all_cons, List.all_cons, List.all_nil, Bool.and_true]
    rfl
  have htarget : c.target.isFinite = (c.target.lower.isFinite && c.target.upper.isFinite) := rfl
  simp only [numbers, List.all_cons, List.all_flatMap, hregion, htarget, Bool.and_assoc]

/-- The regions are read, unless a bound is not finite. -/
theorem echo_regions {c : ShapeConstraint Float} (hnormal : ∀ p ∈ c.regionEntries, p.2.Normal)
    (hread : ∀ x ∈ c.numbers, x.isFinite = true → Json.Rereads x) : ∃ regions,
      Option.Rel (fun a b => a.echo = some b) (c.regions.map Collection.toJson) regions ∧
      Json.optional? Collection.ofJson? regions = if c.regionEntries.all (·.2.isFinite)
      then some c.regions else none := by
  have hbounds : ∀ p ∈ c.regionEntries, ∀ y ∈ [p.2.lower, p.2.upper],
      y.isFinite = true → Json.Rereads y := by
    intro p hp y hy
    exact hread y (mem_numbers.2 (.inr (.inr (.inr ⟨p, hp, List.mem_pair.1 hy⟩))))
  unfold regionEntries at hnormal hbounds ⊢
  cases hregions : c.regions with
  | none => exact ⟨none, .none, rfl⟩
  | some regions =>
    rw [hregions] at hnormal hbounds
    obtain ⟨fields, hfields, hof⟩ :=
      Collection.echo_toJson (fun p hp => (hnormal p hp).of_bounds) hbounds
    refine ⟨some (.object fields), .some hfields, ?_⟩
    show (Collection.ofFields? ∅ fields).map some = if regions.toList.all _
        then some (some regions) else none
    rw [hof]
    cases regions.toList.all (·.2.isFinite) <;> rfl

theorem ReadFrom.echo_toJson {line : List Char} {c : ShapeConstraint Float} (h : c.ReadFrom line)
    (hread : ∀ x ∈ c.numbers, x.isFinite = true → Json.Rereads x) :
    ∃ j, c.toJson.echo = some j ∧ ofJson? j = if c.numbers.all Float.isFinite then some c
      else none := by
  have hbounds : ∀ y ∈ [c.target.lower, c.target.upper], y.isFinite = true → Json.Rereads y := by
    intro y hy
    refine hread y (mem_numbers.2 (.inr ?_))
    rcases List.mem_pair.1 hy with rfl | rfl
    · exact .inl rfl
    · exact .inr (.inl rfl)
  obtain ⟨target, htarget, hinterval⟩ := Interval.echo_toJson h.target.of_bounds hbounds
  obtain ⟨weight, hweight, hscalar⟩ := Json.echo_ofScalar (hread _ (mem_numbers.2 (.inl rfl)))
  obtain ⟨regions, hregions, hcollection⟩ := echo_regions (fun p hp => (h.regions p hp).2) hread
  refine ⟨_, (congrArg Json.echo c.toJson_eq).trans (echo_writtenFields htarget hweight hregions),
    ?_⟩
  have hname : Json.optional? Json.string? (c.variableName.map Json.string) =
      some c.variableName := by
    cases c.variableName <;> rfl
  have hpresent {β : Type} (decode : Json → Option β) (default : β) (j : Json) :
      Json.withDefault? decode default (some j) = decode j := rfl
  unfold ofJson?
  rw [record?_writtenFields]
  simp only [Option.bind_eq_bind, Option.bind_some, hpresent, hname, hinterval,
    hscalar, hcollection, nat32?_integer h.derivations_lt, all_isFinite_numbers]
  -- a bound that is not finite has been written as `null`, which no number is read from
  cases c.target.isFinite <;> cases c.weight.isFinite <;>
    cases c.regionEntries.all (·.2.isFinite) <;> rfl

end ShapeConstraint

/-! ### Texts -/

/-- What is written is read from the text, given what the values are that come back. -/
theorem Json.bind_read?_compact {β : Type} {a : Json} {decode : Json → Option β} {value : Option β}
    (h : ∃ j, a.echo = some j ∧ decode j = value) : (read? a.compact).bind decode = value := by
  obtain ⟨j, hj, hvalue⟩ := h
  rw [read?_compact hj, Option.bind_some, hvalue]

/-- A constraint that was read from a line, intervals that were made from bounds and a modal
interval of any origin come back from their texts if all of their numbers are finite, and are
refused otherwise. -/
theorem restored_from_text (line : List Char) (c : ShapeConstraint Float) (m : Collection Float)
    (x : ModalInterval Float) :
    (ShapeConstraint.readLine line = .ok c → (∀ y ∈ c.numbers, y.isFinite = true → Json.Rereads y) →
      (Json.read? c.toJson.compact).bind ShapeConstraint.ofJson? =
        if c.numbers.all Float.isFinite then some c else none) ∧
    ((∀ p ∈ m.toList, ∃ l u, Interval.of l u = .ok p.2) →
      (∀ p ∈ m.toList, ∀ y ∈ [p.2.lower, p.2.upper], y.isFinite = true → Json.Rereads y) →
      (Json.read? m.toJson.compact).bind Collection.ofJson? = if m.toList.all (·.2.isFinite)
      then some m else none) ∧
    (x.Built → (∀ y ∈ [x.lower, x.upper], y.isFinite = true → Json.Rereads y) →
      (Json.read? x.toJson.compact).bind ModalInterval.ofJson? = if x.isFinite then some x
      else none) := by
  refine ⟨fun hc hread => ?_, fun hm hread => ?_, fun hx hread => ?_⟩
  · exact Json.bind_read?_compact ((ShapeConstraint.readFrom_of_readLine hc).echo_toJson hread)
  · have hnormal : ∀ p ∈ m.toList, Interval.of p.2.lower p.2.upper = .ok p.2 := by
      intro p hp
      obtain ⟨l, u, h⟩ := hm p hp
      exact Interval.of_bounds_of_of h
    obtain ⟨fields, hfields, hof⟩ := Collection.echo_toJson hnormal hread
    exact Json.bind_read?_compact ⟨_, hfields, hof⟩
  · exact Json.bind_read?_compact (x.echo_toJson hx hread)

/-- The ranges `x in [0 .. 1]` and `y in [-2.5 .. 2.5]`. -/
def unitStrip : Collection Float :=
  (∅ : Collection Float).insert "x" ⟨0, 1⟩ |>.insert "y" ⟨-2.5, 2.5⟩

/-- The constraint `∂²f/∂x² in [-0.1 .. 0], x in [0 .. 1], y in [-2.5 .. 2.5], weight: 2`. -/
def nearlyFlat : ShapeConstraint Float := ⟨⟨-0.1, 0⟩, 2, some "x", 2, some unitStrip⟩

theorem restored_from_text_nearlyFlat :
    (Json.read? nearlyFlat.toJson.compact).bind ShapeConstraint.ofJson? = some nearlyFlat ∧
      (Json.read? unitStrip.toJson.compact).bind Collection.ofJson? = some unitStrip ∧
      (Json.read? (ModalInterval.of (3 : Float) 1).toJson.compact).bind ModalInterval.ofJson? =
        some (ModalInterval.of (3 : Float) 1) := by
  let line := "∂²f/∂x² in [-0.1 .. 0], x in [0 .. 1], y in [-2.5 .. 2.5], weight: 2".toList
  obtain ⟨hconstraint, hcollection, hmodal⟩ :=
    restored_from_text line nearlyFlat unitStrip (.of 3 1)
  have hread : ShapeConstraint.readLine line = .ok nearlyFlat :=
    toOption_eq_some.1 (by decide +kernel)
  have hranges : ∀ p ∈ unitStrip.toList, ∃ l u, Interval.of l u = .ok p.2 := by
    have hnormal : ∀ p ∈ unitStrip.toList, (Interval.of p.2.lower p.2.upper).toOption = some p.2 :=
      by decide +kernel
    exact fun p hp => ⟨_, _, toOption_eq_some.1 (hnormal p hp)⟩
  refine ⟨?_, ?_, ?_⟩
  · rw [hconstraint hread (by decide +kernel), if_pos (by decide +kernel)]
  · rw [hcollection hranges (by decide +kernel), if_pos (by decide +kernel)]
  · rw [hmodal (.of 3 1) (by decide +kernel), if_pos (by decide +kernel)]

/-- A target without an upper bound is not read back. -/
theorem restored_from_text_unbounded : ∃ c : ShapeConstraint Float,
    ShapeConstraint.readLine "f in [0 .. inf]".toList = .ok c ∧ (∀ y ∈ c.numbers, y.isNaN = false) ∧
      (∀ y ∈ c.numbers, y.isFinite = true → Json.Rereads y) ∧
      ((Json.read? c.toJson.compact).bind ShapeConstraint.ofJson? : Option
        (ShapeConstraint Float)) = none := by
  refine ⟨.onModel ⟨0, 1 / 0⟩, toOption_eq_some.1 (by decide +kernel),
    by decide +kernel, by decide +kernel, ?_⟩
  decide +kernel

end ModalBounds
