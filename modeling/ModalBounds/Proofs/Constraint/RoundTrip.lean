import ModalBounds.Proofs.Constraint.Reading

/-!
# The text of a constraint reads back

A constraint that was read from a line is written as a text that is read as the same constraint
exactly if all of its names are identifiers (`readLine_text_iff`): a constraint writes its names
without quotes.
-/

namespace ModalBounds.ShapeConstraint

section
variable {α : Type} [Scalar α] [Numeral α] {c : ShapeConstraint α}

/-- A constraint whose text has all that is in it. -/
structure Recoverable (c : ShapeConstraint α) : Prop where
  subject : c.variableName = none ∧ c.derivations = 0 ∨
    c.variableName ≠ none ∧ c.derivations ∈ [1, 2, 3]
  names : ∀ name ∈ c.names, isIdentifier name = true
  target : RecoversInterval c.target
  regions : ∀ p ∈ c.regionEntries, RecoversInterval p.2
  regions_ne : c.regions ≠ some ∅
  weight : Recovers c.weight
  weight_one : (c.weight == 1) = true → c.weight = 1

theorem toList_regionsText (regions : Collection α) :
    (regionsText regions).toList = regions.toList.flatMap regionChars := by
  have hchars (p : String × Interval α) : (", " ++ p.1 ++ " in " ++ p.2.text).toList =
      regionChars p := by
    simp [regionChars, String.toList_append]
  simp only [regionsText, String.toList_join, List.flatMap_map, hchars]

theorem toList_constraintText (c : ShapeConstraint α) : c.text.toList = c.subjectText.toList ++
    ' ' :: 'i' :: 'n' :: ' ' ::
      (c.target.text.toList ++ (c.regionEntries.flatMap regionChars ++ weightChars c.weight)) := by
  have hregions : ((c.regions.map regionsText).getD "").toList =
      c.regionEntries.flatMap regionChars := by
    unfold regionEntries
    cases c.regions with
    | none => rfl
    | some r => exact toList_regionsText r
  have hweight : (if c.weight == 1 then "" else ", weight: " ++ numberText c.weight).toList =
      weightChars c.weight := by
    unfold weightChars
    split
    · rfl
    · exact String.toList_append ..
  rw [text, String.toList_append, String.toList_append, hregions, hweight]
  simp [String.toList_append]

theorem foldl_insert_toList {β : Type} (m : NameMap β) :
    m.toList.foldl (fun m p => m.insert p.1 p.2) (∅ : NameMap β) = m := by
  rw [← Std.ExtTreeMap.ofList_eq_foldl]
  refine Std.ExtTreeMap.ext_getElem? fun name => ?_
  cases hname : m[name]? with
  | some x =>
    refine Std.ExtTreeMap.getElem?_ofList_of_mem Std.ReflCmp.compare_self
      Std.ExtTreeMap.distinct_keys_toList ?_
    rwa [Std.ExtTreeMap.mem_toList_iff_getElem?_eq_some]
  | none =>
    refine Std.ExtTreeMap.getElem?_ofList_of_contains_eq_false ?_
    rw [Std.ExtTreeMap.map_fst_toList_eq_keys]
    simpa using hname

theorem optionsOf_regionList {source : List Char} {c : ShapeConstraint α} {t : Token Rule}
    {ts : List (Token Rule)} {regions : Collection α} (hrule : t.rule = .regionList)
    (h : regionsOf source ∅ t.parts = .ok regions) :
    optionsOf source c (t :: ts) = optionsOf source { c with regions := some regions } ts := by
  simp only [optionsOf, hrule, h]
  rfl

theorem optionsOf_weightClause {source : List Char} {c : ShapeConstraint α} {t : Token Rule}
    {ts : List (Token Rule)}
    {weight : α} (hrule : t.rule = .weightClause) (h : weightOf source t = .ok weight) :
    optionsOf source c (t :: ts) = optionsOf source { c with weight := weight } ts := by
  simp only [optionsOf, hrule, h]
  rfl

theorem Recoverable.options (hc : c.Recoverable) {m : Mark}
    (hm : m.rest = c.regionEntries.flatMap regionChars ++ weightChars c.weight) : ∃ n ts,
    modelGrammar.Yields false
      (.spaced (.opt (.rule .regionList)) [.opt (.rule .weightClause), .rule .endOfInput]) m
        (some (n, ts)) ∧
      ∀ source, optionsOf source { c with regions := none, weight := 1 } ts = .ok c := by
  -- with no regions nothing is read; regions are read into a map, in whose order they were written
  have hregions : ∃ k ts, modelGrammar.Yields false (.opt (.rule .regionList)) m (some (k, ts)) ∧
      k.rest.dropWhile isBlank = weightChars c.weight ∧ ∀ source us,
        optionsOf source { c with regions := none, weight := 1 } (ts ++ us) =
          optionsOf source { c with weight := 1 } us := by
    cases hr : c.regions with
    | none =>
      have hm : m.rest = weightChars c.weight := by simpa [regionEntries, hr] using hm
      have hnone : modelGrammar.Yields false (.rule .regionList) m none :=
        .rule_not (.seq_not (yields_region_none hm))
      refine ⟨m, [], .opt_none hnone, by rw [hm, dropWhile_weightChars], fun source us => ?_⟩
      rw [List.nil_append, ← hr]
    | some r =>
      have hentries : c.regionEntries = r.toList := by simp [regionEntries, hr]
      obtain ⟨p, entries, hcons⟩ := List.exists_cons_of_ne_nil (l := r.toList) fun hnil =>
        hc.regions_ne (by rw [hr, Std.ExtTreeMap.toList_eq_nil_iff.1 hnil])
      rw [hentries, hcons] at hm
      obtain ⟨k, ts, hts, hk, hregions⟩ := yields_regions (fun q hq => by
        rw [← hcons, ← hentries] at hq
        exact ⟨hc.names q.1 (List.mem_append_right _ (List.mem_map_of_mem hq)), hc.regions q hq⟩) hm
      refine ⟨k, _, .opt_some hts, hk, fun source us => ?_⟩
      have hread := regionsOf_eq source hregions ∅
      rw [← hcons, foldl_insert_toList] at hread
      rw [List.singleton_append, optionsOf_regionList rfl hread, ← hr]
  obtain ⟨k, ts, hts, hk, hread⟩ := hregions
  obtain ⟨l, us, hus, hl, hweight⟩ := yields_weight hc.weight ((rest_skipBlanks k).trans hk)
  have hend : (skipBlanks isBlank l).rest = [] := by rw [rest_skipBlanks, hl]; rfl
  refine ⟨_, _, .seq hts (.seq yields_skipped
    (.seq hus (.seq yields_skipped (.rule (.atEnd hend))))), fun source => ?_⟩
  rw [hread]
  rcases hweight with ⟨hone, rfl⟩ | ⟨t, rfl, hrule, hweight⟩
  · have hweight : { c with weight := 1 } = c := by rw [← hc.weight_one hone]
    rw [hweight]
    rfl
  · rw [List.nil_append, List.singleton_append, optionsOf_weightClause hrule (hweight source)]
    rfl

omit [Scalar α] [Numeral α] in
theorem opens_subjectText (c : ShapeConstraint α) :
    ∃ d ds, c.subjectText.toList = d :: ds ∧ isBlank d = false := by
  unfold subjectText
  split
  · exact ⟨'f', [], rfl, rfl⟩
  · exact ⟨'f', [], rfl, rfl⟩
  all_goals exact ⟨'∂', _, by simp only [String.toList_append]; rfl, rfl⟩

theorem Recoverable.readLine_text (hc : c.Recoverable) : readLine c.text.toList = .ok c := by
  have hskip : (skipBlanks isBlank (.start c.text.toList)).rest = c.subjectText.toList ++
      ' ' :: 'i' :: 'n' :: ' ' ::
        (c.target.text.toList ++
          (c.regionEntries.flatMap regionChars ++ weightChars c.weight)) := by
    rw [rest_skipBlanks, ← dropWhile_isBlank_of_opens (opens_subjectText c),
      ← toList_constraintText]
    rfl
  obtain ⟨k, t, ht, hk, htarget⟩ := yields_target hc.subject
    (fun name hname => hc.names name (List.mem_append_left _ (by simpa using hname))) hskip
  obtain ⟨l, hin, hl⟩ := yields_in hk
  obtain ⟨q, u, hu, hq, hinterval⟩ := yields_interval hc.target hl
  have hoptions : (skipBlanks isBlank q).rest =
      c.regionEntries.flatMap regionChars ++ weightChars c.weight := by
    rw [rest_skipBlanks, hq]
    cases c.regionEntries with
    | nil => exact dropWhile_weightChars c.weight
    | cons => rfl
  obtain ⟨n, ts, hts, hread⟩ := hc.options hoptions
  refine readLine_eq_ok.2
    ⟨n, t :: u :: ts, .seq ht (.seq yields_skipped (.seq hin (.seq yields_skipped
    (.seq hu (.seq yields_skipped hts))))), ?_⟩
  refine bind_eq_ok.2 ⟨_, htarget _, bind_eq_ok.2 ⟨_, hinterval _, ?_⟩⟩
  rw [← hread c.text.toList]
  obtain ⟨target, weight, variableName, derivations, regions⟩ := c
  cases variableName with
  | none =>
    obtain rfl : derivations = 0 := (hc.subject.resolve_right fun h => h.1 rfl).2
    rfl
  | some name => rfl

end

/-! ### Quotes -/

section
variable {α : Type} [Scalar α] [Numeral α] {c : ShapeConstraint α}

omit [Scalar α] [Numeral α] in
theorem mem_numbers {x : α} :
    x ∈ c.numbers ↔ x = c.weight ∨ x = c.target.lower ∨ x = c.target.upper ∨
    ∃ p ∈ c.regionEntries, x = p.2.lower ∨ x = p.2.upper := by
  simp [numbers]

theorem quote_not_mem_numberText {x : α} (hx : Scalar.isNaN x = false) :
    '\'' ∉ (numberText x).toList := by
  have hdigits {ds : List Char} (hds : IsDigits ds) : '\'' ∉ ds := by
    intro hmem
    cases hds.2 _ hmem
  have hmagnitude : '\'' ∉ unsigned (numberText x).toList := by
    rcases isMagnitude_unsigned hx with h | h | ⟨ds, fs, hds, hfs, h⟩
    · rw [h]
      decide
    · exact hdigits h
    · rw [h]
      simp [hdigits hds, hdigits hfs]
  rw [eq_unsigned (numberText x).toList]
  split
  · simpa using hmagnitude
  · exact hmagnitude

theorem quote_not_mem_text (hnames : ∀ name ∈ c.names, '\'' ∉ name.toList)
    (hnumbers : ∀ x ∈ c.numbers, Scalar.isNaN x = false) : '\'' ∉ c.text.toList := by
  have hinterval {x : Interval α} (hl : Scalar.isNaN x.lower = false)
      (hu : Scalar.isNaN x.upper = false) :
      '\'' ∉ x.text.toList := by
    rw [toList_text]
    simp [quote_not_mem_numberText hl, quote_not_mem_numberText hu]
  have hsubject : '\'' ∉ c.subjectText.toList := by
    have hvariable : ∀ name ∈ c.variableName, '\'' ∉ name.toList :=
      fun name hname => hnames name (List.mem_append_left _ (by simpa using hname))
    have hdigits (n : ℕ) : '\'' ∉ (toString n).toList :=
      fun hmem => nomatch (isDigits_toString n).2 _ hmem
    unfold subjectText
    split <;> simp_all [String.toList_append]
  have hregions : '\'' ∉ c.regionEntries.flatMap regionChars := by
    rw [List.mem_flatMap]
    rintro ⟨p, hp, hmem⟩
    have hname := hnames p.1 (List.mem_append_right _ (List.mem_map_of_mem hp))
    have htext : '\'' ∉ p.2.text.toList :=
      hinterval (hnumbers _ (mem_numbers.2 (.inr (.inr (.inr ⟨p, hp, .inl rfl⟩)))))
      (hnumbers _ (mem_numbers.2 (.inr (.inr (.inr ⟨p, hp, .inr rfl⟩)))))
    simp [regionChars, hname, htext] at hmem
  have hweight : '\'' ∉ weightChars c.weight := by
    rcases weightChars_cases c.weight with ⟨-, h⟩ | h <;> rw [h]
    · simp
    · simp [quote_not_mem_numberText (hnumbers c.weight (mem_numbers.2 (.inl rfl)))]
  have htarget : '\'' ∉ c.target.text.toList :=
    hinterval (hnumbers _ (mem_numbers.2 (.inr (.inl rfl))))
      (hnumbers _ (mem_numbers.2 (.inr (.inr (.inl rfl)))))
  rw [toList_constraintText]
  simp [hsubject, hregions, hweight, htarget]

end

/-! ### Doubles -/

section
variable {line : List Char} {c : ShapeConstraint Float}

theorem ReadFrom.numbers (h : c.ReadFrom line) : ∀ x ∈ c.numbers, x.isNaN = false := by
  intro x hx
  rcases mem_numbers.1 hx with rfl | rfl | rfl | ⟨p, hp, rfl | rfl⟩
  · exact h.weight
  · exact h.target.lower
  · exact h.target.upper
  · exact (h.regions p hp).2.lower
  · exact (h.regions p hp).2.upper

theorem ReadFrom.recoverable (h : c.ReadFrom line)
    (hread : ∀ x ∈ c.numbers, x.isNaN = false → readNumber (numberText x).toList = .ok x)
    (hnames : ∀ name ∈ c.names, isIdentifier name = true) : c.Recoverable := by
  have hnumber : ∀ x ∈ c.numbers, Recovers x :=
    fun x hx => ⟨h.numbers x hx, hread x hx (h.numbers x hx)⟩
  refine ⟨h.subject, hnames, ⟨hnumber _ ?_, hnumber _ ?_, h.target.of_bounds⟩, fun p hp =>
    ⟨hnumber _ ?_, hnumber _ ?_, (h.regions p hp).2.of_bounds⟩, h.regions_ne, hnumber _ ?_,
      Double.eq_one_of_beq⟩
  · exact mem_numbers.2 (.inr (.inl rfl))
  · exact mem_numbers.2 (.inr (.inr (.inl rfl)))
  · exact mem_numbers.2 (.inr (.inr (.inr ⟨p, hp, .inl rfl⟩)))
  · exact mem_numbers.2 (.inr (.inr (.inr ⟨p, hp, .inr rfl⟩)))
  · exact mem_numbers.2 (.inl rfl)

/-- The text of a constraint that was read is read as the same constraint exactly if the variable of
the derivative and those of the regions have identifiers for names: a constraint writes no
quotes. -/
theorem readLine_text_iff (h : readLine line = .ok c)
    (hread : ∀ x ∈ c.numbers, x.isNaN = false → readNumber (numberText x).toList = .ok x) :
    readLine c.text.toList = .ok c ↔ ∀ name ∈ c.names, isIdentifier name = true := by
  have hfrom := readFrom_of_readLine h
  constructor
  · intro htext name hname
    refine ((readFrom_of_readLine htext).names name hname).isIdentifier ?_
    exact quote_not_mem_text (fun name hname => (hfrom.names name hname).quote) hfrom.numbers
  · intro hnames
    exact (hfrom.recoverable hread hnames).readLine_text

/-- The constraint `∂²f/∂x² in [-inf .. 0], x in [0 .. 1], y in [-2.5 .. 2.5], weight: 2`. -/
def concaveInX : ShapeConstraint Float :=
  ⟨⟨-1 / 0, 0⟩, 2, some "x", 2,
    some ((∅ : Collection Float).insert "x" ⟨0, 1⟩ |>.insert "y" ⟨-2.5, 2.5⟩)⟩

theorem readLine_text_concaveInX :
    readLine "∂²f/∂x² in [-∞ .. 0], y in [-2.50 .. +2.5], x in [0 .. 1] weight:2".toList =
      .ok concaveInX ∧
      readLine concaveInX.text.toList = .ok concaveInX := by
  have hread :
      readLine "∂²f/∂x² in [-∞ .. 0], y in [-2.50 .. +2.5], x in [0 .. 1] weight:2".toList =
        .ok concaveInX :=
    toOption_eq_some.1 (by decide +kernel)
  have hnumbers : ∀ x ∈ concaveInX.numbers, (readNumber (numberText x).toList).toOption = some x :=
    by decide +kernel
  exact ⟨hread, (readLine_text_iff hread fun x hx _ =>
    toOption_eq_some.1 (hnumbers x hx)).2 (by decide +kernel)⟩

/-- The quotes around a name are not written. -/
theorem readLine_text_flowRate : ∃ c : ShapeConstraint Float,
    readLine "∂f/∂'flow rate' in [0 .. 1]".toList = .ok c ∧
      ∀ c' : ShapeConstraint Float, readLine c.text.toList ≠ .ok c' := by
  refine ⟨onDerivative ⟨0, 1⟩ "flow rate" 1, toOption_eq_some.1 (by decide +kernel), fun c' h => ?_⟩
  have hnone : (readLine (α := Float)
      (onDerivative (⟨0, 1⟩ : Interval Float) "flow rate" 1).text.toList).toOption = none := by
    decide +kernel
  rw [h] at hnone
  cases hnone

end

end ModalBounds.ShapeConstraint
