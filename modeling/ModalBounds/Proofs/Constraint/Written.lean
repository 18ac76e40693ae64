import ModalBounds.Syntax.Constraint
import ModalBounds.Proofs.Failure
import ModalBounds.Proofs.Scalar.Collapse
import ModalBounds.Proofs.Syntax.Written

/-!
# What reading a constraint builds

`ReadFrom` describes the constraints that are read from a line: up to a third derivative or the
model itself, at least one region if there are any, no undefined number, and intervals as their
bounds make them. No name has a quote in it, and without quotes in the line the names are
identifiers (`readFrom_of_readLine`).
-/

namespace ModalBounds

/-! ### Intervals -/

/-- An interval as its bounds make it. -/
structure Interval.Normal {α : Type} [Scalar α] (x : Interval α) : Prop where
  lower : Scalar.isNaN x.lower = false
  upper : Scalar.isNaN x.upper = false
  of_bounds : Interval.of x.lower x.upper = .ok x

namespace Interval

section
variable {l u : Float}

theorem bounds_of_of {x : Interval Float} (h : Interval.of l u = .ok x) :
    (x.lower, x.upper) = collapse l u := by
  unfold Interval.of at h
  split at h
  split at h <;> cases h
  symm
  assumption

/-- Made again from its bounds an interval stays as it is. -/
theorem of_bounds_of_of {x : Interval Float} (h : Interval.of l u = .ok x) :
    Interval.of x.lower x.upper = .ok x := by
  have hbounds := bounds_of_of h
  have hcollapse : collapse x.lower x.upper = collapse l u := by
    rw [← Double.collapse_collapse l u, ← hbounds]
  unfold Interval.of at h ⊢
  rw [hcollapse]
  exact h

theorem normal_of {x : Interval Float} (hl : l.isNaN = false) (hu : u.isNaN = false)
    (h : Interval.of l u = .ok x) : x.Normal := by
  have hbounds := bounds_of_of h
  unfold collapse at hbounds
  split_ifs at hbounds <;> obtain ⟨hlower, hupper⟩ := Prod.mk.inj hbounds
  · exact ⟨by rw [hlower]; rfl, by rw [hupper]; rfl, of_bounds_of_of h⟩
  · exact ⟨by rwa [hlower], by rwa [hupper], of_bounds_of_of h⟩
  · exact ⟨by rwa [hlower], by rwa [hupper], of_bounds_of_of h⟩

end

end Interval

namespace ShapeConstraint

section
variable {α : Type}

def regionEntries (c : ShapeConstraint α) :
    List (String × Interval α) := (c.regions.map (·.toList)).getD []

/-- The names in a constraint: the variable of the derivative and those of the regions. -/
def names (c : ShapeConstraint α) :
    List String := c.variableName.toList ++ c.regionEntries.map (·.1)

def numbers (c : ShapeConstraint α) : List α :=
  c.weight :: c.target.lower :: c.target.upper :: c.regionEntries.flatMap fun p =>
    [p.2.lower, p.2.upper]

end

/-- A name that a line can have in it. -/
structure IsNameIn (line : List Char) (name : String) : Prop where
  ne : name.toList ≠ []
  quote : '\'' ∉ name.toList
  isIdentifier : '\'' ∉ line → isIdentifier name = true

section
variable {line : List Char} {t : Token Rule}

theorem isNameIn_of_occurs (h : modelGrammar.Occurs (.start line) t)
    (hrule : t.rule = .constraintVar) {name : String}
    (hname : nameOf? t = some name) : IsNameIn line name := by
  have hyields := h.yields
  have hsubset := h.rest_subset
  obtain ⟨r, m, n, ts⟩ := t
  obtain rfl : r = .constraintVar := hrule
  obtain ⟨name', hname', hne, hquote, htext⟩ := name_of_yields (r := .constraintVar) hyields
  obtain rfl : name = name' := Option.some.inj (hname.symm.trans hname')
  refine ⟨hne, hquote, fun h => htext.elim And.left fun hspans => absurd (hsubset ?_) h⟩
  rw [hspans.rest]
  exact List.mem_cons_self ..

section
variable {α : Type}

theorem orderOf_mem (t : Token Rule) : orderOf t ∈ [1, 2, 3] := by
  unfold orderOf
  split <;> decide

theorem derivativeOf_eq_ok {source : List Char} {parts : List (Token Rule)}
    {name : String} {order : ℕ} (hparts : ∀ u ∈ parts, modelGrammar.Occurs (.start line) u)
    (h : derivativeOf (α := α) source t parts = .ok (name, order)) :
    IsNameIn line name ∧ order ∈ [1, 2, 3] := by
  unfold derivativeOf at h
  dsimp only at h
  split at h
  · cases h
  · rename_i name' hname
    obtain ⟨u, hu, hname⟩ := Option.bind_eq_some_iff.1 hname
    have hrule : u.rule = .constraintVar := by simpa using List.find?_some hu
    have hin := isNameIn_of_occurs (hparts u (List.mem_of_find?_eq_some hu)) hrule hname
    split at h
    · obtain ⟨rfl, rfl⟩ := Prod.mk.inj (Except.ok.inj h)
      exact ⟨hin, by decide⟩
    · rename_i a b horders
      split at h
      · obtain ⟨rfl, rfl⟩ := Prod.mk.inj (Except.ok.inj h)
        refine ⟨hin, ?_⟩
        have hmem : a ∈ (parts.filter (·.rule == .order)).map orderOf := by simp [horders]
        obtain ⟨u, -, rfl⟩ := List.mem_map.1 hmem
        exact orderOf_mem u
      · cases h
    · cases h

theorem targetOf_eq_ok {source : List Char} {subject : Option (String × ℕ)}
    (ht : modelGrammar.Occurs (.start line) t) (h : targetOf (α := α) source t = .ok subject) :
    ∀ p ∈ subject, IsNameIn line p.1 ∧ p.2 ∈ [1, 2, 3] := by
  have hparts := ht.parts
  unfold targetOf at h
  split at h
  · cases h
    simp
  · rename_i heq
    obtain ⟨p, hp, h⟩ := bind_eq_ok.1 h
    cases h
    rintro p ⟨⟩
    rw [heq, List.forall_mem_singleton] at hparts
    exact derivativeOf_eq_ok hparts.parts hp
  · cases h

end

/-! ### Numbers -/

theorem isNaN_boundOf {source : List Char} {x : Float} (h : boundOf source t = .ok x) :
    x.isNaN = false := by
  unfold boundOf at h
  split at h
  dsimp only at h
  split at h
  · rename_i value hvalue
    have hdefined : value.isNaN = false := by
      split at hvalue
      · cases hvalue
        decide
      · cases hvalue
        decide
      · obtain ⟨d, -, rfl⟩ := Option.map_eq_some_iff.1 hvalue
        exact Double.isNaN_ofDecimal d
    rw [← Except.ok.inj h]
    split
    · exact (Double.isNaN_neg_eq value).trans hdefined
    · exact hdefined
  · cases h

theorem normal_intervalOf {source : List Char} {x : Interval Float}
    (h : intervalOf source t = .ok x) : x.Normal := by
  unfold intervalOf at h
  split at h
  · obtain ⟨l, hl, h⟩ := bind_eq_ok.1 h
    obtain ⟨u, hu, h⟩ := bind_eq_ok.1 h
    cases hx : Interval.of l u with
    | ok x' =>
      rw [hx] at h
      cases h
      exact Interval.normal_of (isNaN_boundOf hl) (isNaN_boundOf hu) hx
    | error e =>
      rw [hx] at h
      cases e <;> cases h
  · cases h

/-! ### Regions and options -/

theorem parts_of_region {m : Mark} (ht : modelGrammar.Occurs m t) (hrule : t.rule = .region) :
    ∃ u us, u.rule = .constraintVar ∧ (∀ v ∈ us, v.rule = .boundInterval) ∧ t.parts = u :: us := by
  have hyields := ht.yields
  rw [hrule] at hyields
  obtain ⟨_, us, vs, hfirst, hrest, hparts⟩ := Grammar.yields_seq_some.1 hyields
  obtain ⟨ws, -, rfl⟩ := Grammar.yields_rule_some hfirst
  have hmem : ∀ v ∈ vs, v.rule ∈ [Rule.boundInterval] := hrest.rule_mem
  exact ⟨_, vs, rfl, fun v hv => List.mem_singleton.1 (hmem v hv), hparts⟩

theorem regions_of_regionList {m : Mark} (ht : modelGrammar.Occurs m t)
    (hrule : t.rule = .regionList) : ∀ u ∈ t.parts, modelGrammar.Occurs m u ∧ u.rule = .region := by
  have hyields := ht.yields
  rw [hrule] at hyields
  intro u hu
  have hmem : u.rule ∈ [Rule.region, Rule.region, Rule.region] := hyields.rule_mem u hu
  exact ⟨ht.parts u hu, by simpa using hmem⟩

theorem parts_ne_nil_of_regionList {t : Token Rule} (ht : modelGrammar.Occurs (.start line) t)
    (hrule : t.rule = .regionList) : t.parts ≠ [] := by
  have hyields := ht.yields
  rw [hrule] at hyields
  -- one region stands before the repetition
  obtain ⟨_, _, _, hitem, -, hts⟩ := Grammar.yields_seq_some.1 hyields
  obtain ⟨_, _, _, -, hitem, hts'⟩ := Grammar.yields_seq_some.1 hitem
  obtain ⟨_, _, _, -, hregion, hts''⟩ := Grammar.yields_seq_some.1 hitem
  obtain ⟨_, -, rfl⟩ := Grammar.yields_rule_some hregion
  rw [hts, hts', hts'']
  simp [modelGrammar, Rule.isAtomic]

theorem regionsOf_eq_ok {source : List Char} {ts : List (Token Rule)}
    {regions regions' : Collection Float}
    (hts : ∀ t ∈ ts, modelGrammar.Occurs (.start line) t ∧ t.rule = .region)
    (hregions : ∀ name x, regions[name]? = some x → IsNameIn line name ∧ x.Normal)
    (h : regionsOf source regions ts = .ok regions') :
    (∀ name x, regions'[name]? = some x → IsNameIn line name ∧ x.Normal) ∧
    (ts ≠ [] ∨ regions ≠ ∅ → regions' ≠ ∅) := by
  induction ts generalizing regions with
  | nil =>
    cases h
    exact ⟨hregions, by simp⟩
  | cons t ts ih =>
    rw [List.forall_mem_cons] at hts
    obtain ⟨⟨ht, hrule⟩, hts⟩ := hts
    unfold regionsOf at h
    split at h
    · rename_i nameToken intervalToken hparts
      obtain ⟨_, _, hname, -, heq⟩ := parts_of_region ht hrule
      rw [hparts] at heq
      cases heq
      split at h
      · rename_i name hnameOf
        obtain ⟨x, hx, h⟩ := bind_eq_ok.1 h
        have hin := isNameIn_of_occurs (ht.parts nameToken (by simp [hparts])) hname hnameOf
        -- an entry that is read again replaces the first
        have hinsert : ∀ name' x',
            (regions.insert name x)[name']? = some x' → IsNameIn line name' ∧ x'.Normal := by
          intro name' x' h'
          rw [Std.ExtTreeMap.getElem?_insert] at h'
          split at h'
          · rename_i heq
            cases h'
            rw [← Std.LawfulEqCmp.eq_of_compare heq]
            exact ⟨hin, normal_intervalOf hx⟩
          · exact hregions name' x' h'
        obtain ⟨hall, hne⟩ := ih hts hinsert h
        refine ⟨hall, fun _ => hne (.inr fun hempty => ?_)⟩
        have hmem : name ∈ regions.insert name x := by simp
        rw [hempty] at hmem
        simp at hmem
      · cases h
    · cases h

theorem mem_regionEntries {α : Type} {c : ShapeConstraint α} {p : String × Interval α} :
    p ∈ c.regionEntries ↔ ∃ r, c.regions = some r ∧ r[p.1]? = some p.2 := by
  unfold regionEntries
  cases c.regions with
  | none => simp
  | some r => simp [← Std.ExtTreeMap.mem_toList_iff_getElem?_eq_some]

/-- What the parts of a constraint are like that is read from a line. -/
structure ReadFrom (line : List Char) (c : ShapeConstraint Float) : Prop where
  subject : c.variableName = none ∧ c.derivations = 0 ∨
    c.variableName ≠ none ∧ c.derivations ∈ [1, 2, 3]
  variableName : ∀ name ∈ c.variableName, IsNameIn line name
  target : c.target.Normal
  regions : ∀ p ∈ c.regionEntries, IsNameIn line p.1 ∧ p.2.Normal
  regions_ne : c.regions ≠ some ∅
  weight : c.weight.isNaN = false

theorem readFrom_optionsOf {source : List Char} {ts : List (Token Rule)}
    {c c' : ShapeConstraint Float}
    (hts : ∀ t ∈ ts, modelGrammar.Occurs (.start line) t) (hc : c.ReadFrom line)
    (h : optionsOf source c ts = .ok c') : c'.ReadFrom line := by
  induction ts generalizing c with
  | nil =>
    cases h
    exact hc
  | cons t ts ih =>
    rw [List.forall_mem_cons] at hts
    unfold optionsOf at h
    split at h
    · rename_i hrule
      obtain ⟨regions, hregions, h⟩ := bind_eq_ok.1 h
      obtain ⟨hentries, hne⟩ :=
        regionsOf_eq_ok (regions_of_regionList hts.1 hrule) (by simp) hregions
      refine ih (c := { c with regions := some regions }) hts.2
        ⟨hc.subject, hc.variableName, hc.target, fun p hp => ?_, ?_, hc.weight⟩ h
      · obtain ⟨r, hr, hp⟩ := mem_regionEntries.1 hp
        cases hr
        exact hentries _ _ hp
      · rintro ⟨⟩
        exact hne (.inl (parts_ne_nil_of_regionList hts.1 hrule)) rfl
    · obtain ⟨weight, hweight, h⟩ := bind_eq_ok.1 h
      have hdefined : weight.isNaN = false := by
        unfold weightOf at hweight
        split at hweight
        · exact isNaN_boundOf hweight
        · cases hweight
      exact ih (c := { c with weight := weight }) hts.2
        ⟨hc.subject, hc.variableName, hc.target, hc.regions, hc.regions_ne, hdefined⟩ h
    · exact ih hts.2 hc h

open Pattern in
/-- What a line is read as after the blanks it begins with. -/
def lineBody : Pattern Rule :=
  spaced (rule .constraintTarget)
    [word 'i' ['n'], rule .boundInterval, opt (rule .regionList), opt (rule .weightClause),
      rule .endOfInput]

theorem parts_of_line {m n : Mark} {ts : List (Token Rule)}
    (h : modelGrammar.Yields false lineBody m (some (n, ts))) :
    ∃ subject interval rest, interval.rule = .boundInterval ∧ ts = subject :: interval :: rest := by
  obtain ⟨_, _, _, hsubject, hrest, rfl⟩ := Grammar.yields_seq_some.1 h
  obtain ⟨_, _, _, hblank, hword, rfl⟩ := Grammar.yields_seq_some.1 hrest
  obtain ⟨_, _, _, hin, hrest', rfl⟩ := Grammar.yields_seq_some.1 hword
  obtain ⟨_, _, _, hblank', hoptions, rfl⟩ := Grammar.yields_seq_some.1 hrest'
  obtain ⟨_, _, _, hinterval, -, rfl⟩ := Grammar.yields_seq_some.1 hoptions
  obtain ⟨_, -, rfl⟩ := Grammar.yields_rule_some hsubject
  obtain ⟨_, -, rfl⟩ := Grammar.yields_rule_some hinterval
  cases hblank
  cases hblank'
  have hnone := List.eq_nil_iff_forall_not_mem.2 fun t ht => List.not_mem_nil (hin.rule_mem t ht)
  subst hnone
  exact ⟨_, _, _, rfl, rfl⟩

theorem readLine_eq_ok {α : Type} [Scalar α] [Numeral α] {c : ShapeConstraint α} :
    readLine line = .ok c ↔
    ∃ n ts, modelGrammar.Yields false lineBody (skipBlanks isBlank (.start line)) (some (n, ts)) ∧
      ofToken line (.node .constraintLine (.start line) n ts) = .ok c := by
  rw [readLine, bind_eq_ok]
  constructor
  · rintro ⟨t, ht, h⟩
    obtain ⟨n, hyields⟩ := parseRule_eq_ok.1 ht
    obtain ⟨ts, hbody, hts⟩ := Grammar.yields_rule_some hyields
    obtain ⟨k, _, _, hstart, hrest, rfl⟩ := Grammar.yields_seq_some.1 hbody
    obtain ⟨l, _, _, hblank, hline, rfl⟩ := Grammar.yields_seq_some.1 hrest
    cases hstart
    cases hblank
    cases hts
    exact ⟨n, _, hline, h⟩
  · rintro ⟨n, ts, hline, h⟩
    exact ⟨_, parseRule_eq_ok.2 ⟨n, .rule (.seq (.atStart rfl) (.seq .blank hline))⟩, h⟩

theorem readFrom_of_readLine {c : ShapeConstraint Float} (h : readLine line = .ok c) :
    c.ReadFrom line := by
  obtain ⟨n, ts, hyields, h⟩ := readLine_eq_ok.1 h
  have hparts : ∀ t ∈ ts, modelGrammar.Occurs (.start line) t :=
    fun t ht => (hyields.occurs t ht).of_spans (Mark.spans_skipBlanks isBlank _)
  unfold ofToken at h
  split at h
  · rename_i subjectToken intervalToken rest heq
    obtain rfl : ts = subjectToken :: intervalToken :: rest := heq
    rw [List.forall_mem_cons, List.forall_mem_cons] at hparts
    obtain ⟨subject, hsubject, h⟩ := bind_eq_ok.1 h
    obtain ⟨target, htarget, h⟩ := bind_eq_ok.1 h
    have hin := targetOf_eq_ok hparts.1 hsubject
    refine readFrom_optionsOf hparts.2.2 ?_ h
    have hnormal := normal_intervalOf htarget
    have hone : (1 : Float).isNaN = false := by decide
    cases subject with
    | none => exact ⟨.inl ⟨rfl, rfl⟩, nofun, hnormal, nofun, nofun, hone⟩
    | some p =>
      obtain ⟨hname, horder⟩ := hin p rfl
      refine ⟨.inr ⟨nofun, horder⟩, ?_, hnormal, nofun, nofun, hone⟩
      rintro name ⟨⟩
      exact hname
  · cases h

theorem ReadFrom.names {c : ShapeConstraint Float} (h : c.ReadFrom line) :
    ∀ name ∈ c.names, IsNameIn line name := by
  intro name hname
  rcases List.mem_append.1 hname with hname | hname
  · exact h.variableName name (by simpa using hname)
  · obtain ⟨p, hp, rfl⟩ := List.mem_map.1 hname
    exact (h.regions p hp).1

end

/-! ### Comparing constraints -/

deriving instance DecidableEq for Interval

instance {β : Type} [DecidableEq β] : DecidableEq (NameMap β) :=
  fun a b => decidable_of_iff (a.toList = b.toList) Std.ExtTreeMap.toList_inj

theorem eq_iff {c d : ShapeConstraint Float} : c = d ↔ c.target = d.target ∧ c.weight = d.weight ∧
    c.variableName = d.variableName ∧ c.derivations = d.derivations ∧ c.regions = d.regions := by
  cases c
  cases d
  simp

instance : DecidableEq (ShapeConstraint Float) := fun _ _ => decidable_of_iff _ eq_iff.symm

end ShapeConstraint

end ModalBounds
