import ModalBounds.Proofs.Constraint.Written
import ModalBounds.Proofs.Syntax.Reading

/-!
# Texts that are read as constraints

The text of each part of a constraint is read as that part: a number as a bound, an interval, the
model or a derivative as a target, a region with its name, a weight. The names have to be
identifiers, as they are written without quotes.
-/

namespace ModalBounds.ShapeConstraint

/-! ### Bounds -/

/-- What can follow the sign of a bound, from its text. -/
def IsMagnitude (cs : List Char) : Prop := cs = ['i', 'n', 'f'] ∨ IsPlainNumeral cs

section
variable {cs rest : List Char} {m : Mark}

theorem IsMagnitude.head (h : IsMagnitude cs) :
    ∃ c ds, cs = c :: ds ∧ c ≠ '-' ∧ c ≠ '+' ∧ isBlank c = false := by
  rcases h with rfl | h
  · exact ⟨'i', ['n', 'f'], rfl, by decide⟩
  · obtain ⟨c, ds, rfl, hc⟩ := h.head
    refine ⟨c, ds, rfl, ?_, ?_, ?_⟩
    · rintro rfl
      cases hc
    · rintro rfl
      cases hc
    · rw [Bool.eq_false_iff]
      intro hblank
      simp only [isBlank, Bool.or_eq_true, beq_iff_eq] at hblank
      rcases hblank with ((rfl | rfl) | rfl) | rfl <;> cases hc

theorem yields_magnitude (h : IsMagnitude cs) (hm : m.rest = cs ++ rest)
    (hrest : ∀ c ∈ rest.head?, continuesNumber c = false) : ∃ n, m.Spans cs n ∧
      modelGrammar.Yields true (.firstOf (.word 'i' ['n', 'f']) [.exactly '∞', .rule .number]) m
        (some (n, [])) := by
  rcases h with rfl | h
  · obtain ⟨n, hn, hword⟩ := Grammar.yields_word (g := modelGrammar) (s := true) hm
    exact ⟨n, hn, .alt_first hword⟩
  · obtain ⟨c, ds, rfl, hc⟩ := h.head
    have hnone {d : Char} (hd : d.isDigit = false) : ∀ e ∈ m.rest.head?, e ≠ d := by
      intro e he
      rw [hm] at he
      cases he
      rintro rfl
      rw [hc] at hd
      cases hd
    obtain ⟨n, hn, hnumber⟩ := yields_number (s := true) (.inl h) hm hrest
    exact ⟨n, hn, .alt_second (Grammar.yields_word_none (hnone rfl))
      (.alt_second (Grammar.yields_exactly_none (hnone rfl)) hnumber)⟩

variable {α : Type} [Scalar α] [Numeral α] {x : α}

theorem isMagnitude_unsigned (hx : Scalar.isNaN x = false) :
    IsMagnitude (unsigned (numberText x).toList) := by
  by_cases hdec : HasDecimal x
  · exact .inr (isPlainNumeral_unsigned hdec)
  · left
    rw [unsigned_of_not_hasDecimal hdec, hx]
    rfl

/-- A number as the text of a constraint has it. -/
structure Recovers (x : α) : Prop where
  defined : Scalar.isNaN x = false
  readNumber : readNumber (numberText x).toList = .ok x

theorem yields_bound (hx : Recovers x) (hm : m.rest = (numberText x).toList ++ rest)
    (hrest : ∀ c ∈ rest.head?, continuesNumber c = false) : ∃ n, m.Spans (numberText x).toList n ∧
      modelGrammar.Yields false (.rule .bound) m (some (n, [.node .bound m n []])) := by
  have hmagnitude := isMagnitude_unsigned hx.defined
  obtain ⟨c, ds, hcs, hminus, hplus, -⟩ := hmagnitude.head
  have htext := eq_unsigned (numberText x).toList
  by_cases hsign : beginsSigned (numberText x).toList = true
  · rw [if_pos hsign] at htext
    rw [htext] at hm ⊢
    have hnot : modelGrammar.Yields true (.exactly '+') m none := by
      refine Grammar.yields_exactly_none fun d hd => ?_
      rw [hm] at hd
      cases hd
      decide
    obtain ⟨k, hk, hyields⟩ := Grammar.yields_exactly (g := modelGrammar) (s := true) hm
    obtain ⟨n, hn, hnumber⟩ := yields_magnitude hmagnitude (hk.rest_eq hm) hrest
    exact ⟨n, hk.trans hn, .rule (.seq (.opt_some (.alt_second hnot hyields)) hnumber)⟩
  · rw [if_neg hsign] at htext
    rw [htext] at hm ⊢
    have hhead : ∀ d ∈ m.rest.head?, d = c := by
      intro d hd
      rw [hm, hcs] at hd
      cases hd
      rfl
    obtain ⟨n, hn, hnumber⟩ := yields_magnitude hmagnitude hm hrest
    have hnot : modelGrammar.Yields true (.firstOf (.exactly '+') [.exactly '-']) m none :=
      .alt_second (Grammar.yields_exactly_none fun d hd => by rwa [hhead d hd])
        (Grammar.yields_exactly_none fun d hd => by rwa [hhead d hd])
    exact ⟨n, hn, .rule (.seq (.opt_none hnot) hnumber)⟩

theorem boundOf_eq_ok {source : List Char} {t : Token Rule} {c : Char} {ds : List Char} {v : α}
    (negative : Bool) (hc : c.isDigit = true) (hv : numeral? (c :: ds) = some v)
    (ht : t.chars = if negative then '-' :: c :: ds else c :: ds) :
    boundOf source t = .ok (if negative then -v else v) := by
  have hinf : c ≠ 'i' ∧ c ≠ '∞' ∧ c ≠ '-' ∧ c ≠ '+' := by
    refine ⟨?_, ?_, ?_, ?_⟩ <;> rintro rfl <;> cases hc
  cases negative with
  | true => simp [boundOf, ht, hinf, hv]
  | false => simp [boundOf, ht, hinf, hv]

theorem boundOf_numberText (hx : Recovers x) (source : List Char) {t : Token Rule}
    (ht : t.chars = (numberText x).toList) : boundOf source t = .ok x := by
  have htext := eq_unsigned (numberText x).toList
  by_cases hdec : HasDecimal x
  · obtain ⟨v, hv, hxv⟩ := numeral?_unsigned hdec hx.readNumber
    obtain ⟨c, ds, hcs, hc⟩ := (isPlainNumeral_unsigned hdec).head
    rw [hcs] at htext hv
    rw [boundOf_eq_ok _ hc hv (ht.trans htext)]
    exact congrArg _ hxv.symm
  · have hunsigned := unsigned_of_not_hasDecimal hdec
    rw [hx.defined] at hunsigned
    have hread := hx.readNumber
    rw [htext, hunsigned] at hread
    unfold boundOf
    rw [ht, htext, hunsigned]
    cases hsign : beginsSigned (numberText x).toList with
    | true =>
      rw [hsign] at hread
      exact congrArg _ (Except.ok.inj hread)
    | false =>
      rw [hsign] at hread
      exact congrArg _ (Except.ok.inj hread)

theorem opens_numberText (hx : Scalar.isNaN x = false) :
    ∃ c cs, (numberText x).toList = c :: cs ∧ isBlank c = false := by
  obtain ⟨c, ds, hcs, -, -, hblank⟩ := (isMagnitude_unsigned hx).head
  have htext := eq_unsigned (numberText x).toList
  split at htext
  · exact ⟨'-', _, htext, rfl⟩
  · exact ⟨c, ds, htext.trans hcs, hblank⟩

end

/-! ### Intervals and names -/

section
variable {α : Type} [Scalar α] [Numeral α] {x : Interval α} {m : Mark} {rest : List Char}

/-- An interval as the text of a constraint has it. -/
structure RecoversInterval (x : Interval α) : Prop where
  lower : Recovers x.lower
  upper : Recovers x.upper
  of_bounds : Interval.of x.lower x.upper = .ok x

theorem intervalOf_of_parts (hx : RecoversInterval x) (source : List Char) {r : Rule}
    {k l m n m' n' : Mark}
    (hl : m.Spans (numberText x.lower).toList n) (hu : m'.Spans (numberText x.upper).toList n') :
    intervalOf source (.node r k l [.node .bound m n [], .node .bound m' n' []]) = .ok x := by
  have hlower := boundOf_numberText hx.lower source (t := .node .bound m n []) hl.until_eq
  have hupper := boundOf_numberText hx.upper source (t := .node .bound m' n' []) hu.until_eq
  simp only [intervalOf, Token.parts, hlower, hupper]
  exact bind_eq_ok.2 ⟨_, rfl, bind_eq_ok.2 ⟨_, rfl, by rw [hx.of_bounds]; rfl⟩⟩

theorem toList_text (x : Interval α) : x.text.toList =
    '[' :: ((numberText x.lower).toList ++ ' ' :: '.' :: '.' :: ' ' ::
      ((numberText x.upper).toList ++ [']'])) := by
  show ("[" ++ numberText x.lower ++ " .. " ++ numberText x.upper ++ "]").toList = _
  simp [String.toList_append]

theorem yields_interval (hx : RecoversInterval x) (hm : m.rest = x.text.toList ++ rest) : ∃ n t,
    modelGrammar.Yields false (.rule .boundInterval) m (some (n, [t])) ∧ n.rest = rest ∧
      ∀ source, intervalOf source t = .ok x := by
  have hm : m.rest = '[' :: ((numberText x.lower).toList ++
      ' ' :: '.' :: '.' :: ' ' :: ((numberText x.upper).toList ++ ']' :: rest)) := by
    rw [hm, toList_text]
    simp
  obtain ⟨k, hk, hopen⟩ := Grammar.yields_exactly (g := modelGrammar) (s := false) hm
  have hlower : (skipBlanks isBlank k).rest = (numberText x.lower).toList ++
      ' ' :: '.' :: '.' :: ' ' :: ((numberText x.upper).toList ++ ']' :: rest) := by
    rw [rest_skipBlanks, hk.rest_eq hm]
    exact dropWhile_isBlank_of_opens (opens_numberText hx.lower.defined)
  obtain ⟨l, hl, hlowerBound⟩ := yields_bound hx.lower hlower (by simp [continuesNumber])
  have hdots : (skipBlanks isBlank l).rest =
      ['.', '.'] ++ ' ' :: ((numberText x.upper).toList ++ ']' :: rest) := by
    rw [rest_skipBlanks, hl.rest_eq hlower]
    rfl
  obtain ⟨q, hq, hword⟩ := Grammar.yields_word (g := modelGrammar) (s := false) hdots
  have hupper : (skipBlanks isBlank q).rest = (numberText x.upper).toList ++ ']' :: rest := by
    rw [rest_skipBlanks, hq.rest_eq hdots]
    exact dropWhile_isBlank_of_opens (opens_numberText hx.upper.defined)
  obtain ⟨z, hz, hupperBound⟩ := yields_bound hx.upper hupper (by simp [continuesNumber])
  have hclose : (skipBlanks isBlank z).rest = ']' :: rest := by
    rw [rest_skipBlanks, hz.rest_eq hupper]
    rfl
  obtain ⟨n, hn, hyields⟩ := Grammar.yields_exactly (g := modelGrammar) (s := false) hclose
  exact ⟨n, _, .rule (.seq hopen
    (.seq yields_skipped (.seq hlowerBound (.seq yields_skipped (.seq hword
    (.seq yields_skipped (.seq hupperBound (.seq yields_skipped hyields)))))))), hn.rest_eq hclose,
    fun source => intervalOf_of_parts hx source hl hz⟩

theorem yields_variable {name : String} (hname : isIdentifier name = true)
    (hm : m.rest = name.toList ++ rest)
    (hrest : ∀ c ∈ rest.head?, isIdentifierChar c = false) : ∃ n ts,
    modelGrammar.Yields false (.rule .constraintVar) m (some (n, [.node .constraintVar m n ts])) ∧
    n.rest = rest ∧
      nameOf? (.node .constraintVar m n ts) = some name := by
  obtain ⟨c, cs, hcs, -⟩ := head_of_isIdentifier hname
  have htext : nameText name = name := if_pos hname
  obtain ⟨n, ts, hn, hyields, hnameOf⟩ :=
    yields_name (by simp [hcs]) (quote_not_mem_of_isIdentifier hname)
    (by rwa [htext]) hrest
  rw [htext] at hn
  exact ⟨n, ts, .rule hyields, hn.rest_eq hm, hnameOf ..⟩

/-- What the token of a region stands for. -/
def IsRegion (p : String × Interval α) (t : Token Rule) : Prop :=
  ∃ a b, t.parts = [a, b] ∧ nameOf? a = some p.1 ∧ ∀ source, intervalOf source b = .ok p.2

/-- The text of a region after the one before. -/
def regionChars (p : String × Interval α) : List Char :=
  ',' :: ' ' :: (p.1.toList ++ ' ' :: 'i' :: 'n' :: ' ' :: p.2.text.toList)

theorem yields_in {rest : List Char}
    (hm : m.rest = ' ' :: 'i' :: 'n' :: ' ' :: (x.text.toList ++ rest)) : ∃ n,
    modelGrammar.Yields false (.word 'i' ['n']) (skipBlanks isBlank m) (some (n, [])) ∧
      (skipBlanks isBlank n).rest = x.text.toList ++ rest := by
  have hword : (skipBlanks isBlank m).rest = ['i', 'n'] ++ ' ' :: (x.text.toList ++ rest) := by
    rw [rest_skipBlanks, hm]
    rfl
  obtain ⟨n, hn, hyields⟩ := Grammar.yields_word (g := modelGrammar) (s := false) hword
  refine ⟨n, hyields, ?_⟩
  rw [rest_skipBlanks, hn.rest_eq hword, toList_text]
  rfl

theorem yields_region {p : String × Interval α} (hname : isIdentifier p.1 = true)
    (hx : RecoversInterval p.2)
    (hm : m.rest = regionChars p ++ rest) : ∃ n t,
    modelGrammar.Yields false (.spaced (.exactly ',') [.rule .region]) m (some (n, [t])) ∧
    n.rest = rest ∧
      IsRegion p t := by
  have hm : m.rest =
      ',' :: ' ' :: (p.1.toList ++ ' ' :: 'i' :: 'n' :: ' ' :: (p.2.text.toList ++ rest)) := by
    rw [hm, regionChars]
    simp
  obtain ⟨k, hk, hcomma⟩ := Grammar.yields_exactly (g := modelGrammar) (s := false) hm
  have hstart : (skipBlanks isBlank k).rest =
      p.1.toList ++ ' ' :: 'i' :: 'n' :: ' ' :: (p.2.text.toList ++ rest) := by
    obtain ⟨c, cs, hcs, hc⟩ := head_of_isIdentifier hname
    rw [rest_skipBlanks, hk.rest_eq hm]
    exact dropWhile_isBlank_of_opens ⟨c, cs, hcs, isBlank_of_isIdentifierStart hc⟩
  obtain ⟨l, ts, ht, hl, hnameOf⟩ := yields_variable hname hstart (by simp [isIdentifierChar])
  obtain ⟨q, hin, hq⟩ := yields_in hl
  obtain ⟨n, u, hu, hn, hinterval⟩ := yields_interval hx hq
  have hregion : modelGrammar.Yields false (.rule .region) (skipBlanks isBlank k)
      (some (n, [.node .region
        (skipBlanks isBlank k) n [.node .constraintVar (skipBlanks isBlank k) l ts, u]])) :=
    .rule (.seq ht (.seq yields_skipped (.seq hin (.seq yields_skipped hu))))
  exact ⟨n, _, .seq hcomma (.seq yields_skipped hregion), hn, _, u, rfl, hnameOf, hinterval⟩

/-! ### Weights -/

/-- The end of a constraint's text: a weight other than one. -/
def weightChars (weight : α) : List Char :=
  if weight == 1 then [] else ", weight: ".toList ++ (numberText weight).toList

theorem weightChars_cases (weight : α) : (weight == 1) = true ∧ weightChars weight = [] ∨
    weightChars weight =
      ',' :: ' ' :: ("weight".toList ++ ':' :: ' ' :: (numberText weight).toList) := by
  unfold weightChars
  split
  · exact .inl ⟨‹_›, rfl⟩
  · exact .inr (by simp)

theorem dropWhile_weightChars (weight : α) :
    (weightChars weight).dropWhile isBlank = weightChars weight := by
  rcases weightChars_cases weight with ⟨-, h⟩ | h <;> rw [h] <;> rfl

theorem yields_region_none {weight : α} (hm : m.rest = weightChars weight) :
    modelGrammar.Yields false (.spaced (.exactly ',') [.rule .region]) m none := by
  rcases weightChars_cases weight with ⟨-, h⟩ | h
  · rw [h] at hm
    exact .seq_not (Grammar.yields_exactly_none (by simp [hm]))
  · rw [h] at hm
    obtain ⟨k, hk, hcomma⟩ := Grammar.yields_exactly (g := modelGrammar) (s := false) hm
    have hname : (skipBlanks isBlank k).rest =
        "weight".toList ++ ':' :: ' ' :: (numberText weight).toList := by
      rw [rest_skipBlanks, hk.rest_eq hm]
      rfl
    obtain ⟨l, ts, ht, hl, -⟩ := yields_variable (by decide) hname (by simp [isIdentifierChar])
    have hin : modelGrammar.Yields false (.word 'i' ['n']) (skipBlanks isBlank l) none := by
      refine Grammar.yields_word_none fun d hd => ?_
      rw [rest_skipBlanks, hl] at hd
      cases hd
      decide
    have hregion : modelGrammar.Yields false (.rule .region) (skipBlanks isBlank k) none :=
      .rule_not (.seq ht (.seq yields_skipped (.seq_not hin)))
    exact .seq hcomma (.seq yields_skipped hregion)

theorem yields_weight {weight : α} (hx : Recovers weight) (hm : m.rest = weightChars weight) :
    ∃ n ts,
    modelGrammar.Yields false (.opt (.rule .weightClause)) m (some (n, ts)) ∧ n.rest = [] ∧
      ((weight == 1) = true ∧ ts = [] ∨
        ∃ t, ts = [t] ∧ t.rule = .weightClause ∧ ∀ source, weightOf source t = .ok weight) := by
  -- a weight of one is not written
  rcases weightChars_cases weight with ⟨hone, h⟩ | h
  · rw [h] at hm
    have hcomma : modelGrammar.Yields false (.opt (.exactly ',')) m (some (m, [])) :=
      .opt_none (Grammar.yields_exactly_none (by simp [hm]))
    have hword : modelGrammar.Yields false (.word 'w' ['e', 'i', 'g', 'h', 't'])
        (skipBlanks isBlank m) none :=
      Grammar.yields_word_none (by simp [rest_skipBlanks, hm])
    exact ⟨m, [], .opt_none (.rule_not (.seq hcomma (.seq yields_skipped (.seq_not hword)))), hm,
      .inl ⟨hone, rfl⟩⟩
  · rw [h] at hm
    obtain ⟨k, hk, hcomma⟩ := Grammar.yields_exactly (g := modelGrammar) (s := false) hm
    have hname : (skipBlanks isBlank k).rest =
        ['w', 'e', 'i', 'g', 'h', 't'] ++ ':' :: ' ' :: (numberText weight).toList := by
      rw [rest_skipBlanks, hk.rest_eq hm]
      rfl
    obtain ⟨l, hl, hword⟩ := Grammar.yields_word (g := modelGrammar) (s := false) hname
    have hcolon : (skipBlanks isBlank l).rest = ':' :: ' ' :: (numberText weight).toList := by
      rw [rest_skipBlanks, hl.rest_eq hname]
      rfl
    obtain ⟨q, hq, hyields⟩ := Grammar.yields_exactly (g := modelGrammar) (s := false) hcolon
    have hbound : (skipBlanks isBlank q).rest = (numberText weight).toList ++ [] := by
      rw [rest_skipBlanks, hq.rest_eq hcolon,
        ← dropWhile_isBlank_of_opens (opens_numberText hx.defined)]
      simp [isBlank]
    obtain ⟨n, hn, hnumber⟩ := yields_bound hx hbound (by simp)
    refine ⟨n, _, .opt_some (.rule
      (.seq (.opt_some hcomma) (.seq yields_skipped (.seq hword (.seq yields_skipped
      (.seq hyields (.seq yields_skipped hnumber))))))), hn.rest_eq hbound, .inr ⟨_, rfl, rfl,
      fun source => ?_⟩⟩
    exact boundOf_numberText hx source hn.until_eq

/-! ### Regions -/

theorem regionsOf_eq (source : List Char) {entries : List (String × Interval α)}
    {ts : List (Token Rule)}
    (h : List.Forall₂ IsRegion entries ts) (regions : Collection α) :
    regionsOf source regions ts = .ok (entries.foldl (fun r p => r.insert p.1 p.2) regions) := by
  induction h generalizing regions with
  | nil => rfl
  | cons h _ ih =>
    obtain ⟨a, b, hparts, hname, hinterval⟩ := h
    rw [regionsOf, hparts]
    simp only [hname, hinterval]
    exact ih _

theorem yields_regions {p : String × Interval α} {entries : List (String × Interval α)} {weight : α}
    (hentries : ∀ q ∈ p :: entries, isIdentifier q.1 = true ∧ RecoversInterval q.2)
    (hm : m.rest = (p :: entries).flatMap regionChars ++ weightChars weight) : ∃ n ts,
    modelGrammar.Yields false (.rule .regionList) m (some (n, [.node .regionList m n ts])) ∧
      n.rest.dropWhile isBlank = weightChars weight ∧ List.Forall₂ IsRegion (p :: entries) ts := by
  have hopens (entries : List (String × Interval α)) :
      (entries.flatMap regionChars ++ weightChars weight).dropWhile isBlank =
        entries.flatMap regionChars ++ weightChars weight := by
    cases entries with
    | nil => exact dropWhile_weightChars weight
    | cons => rfl
  rw [List.forall_mem_cons] at hentries
  rw [List.flatMap_cons, List.append_assoc] at hm
  obtain ⟨k, t, ht, hk, hregion⟩ := yields_region hentries.1.1 hentries.1.2 hm
  have hrest : (skipBlanks isBlank k).rest = entries.flatMap regionChars ++ weightChars weight := by
    rw [rest_skipBlanks, hk, hopens]
  obtain ⟨n, tss, htss, hn, hregions⟩ :=
    yields_spacedStar (X := .spaced (.exactly ',') [.rule .region])
    (T := fun entries => entries.flatMap regionChars ++ weightChars weight)
    (Q := fun q => isIdentifier q.1 = true ∧ RecoversInterval q.2)
      (P := fun q ts => ∃ t, ts = [t] ∧ IsRegion q t) hopens
    (fun q entries m hq _ hm => by
      rw [List.flatMap_cons, List.append_assoc] at hm
      obtain ⟨n, t, ht, hn, hregion⟩ := yields_region hq.1 hq.2 hm
      exact ⟨n, [t], ht, by rw [hn, hopens], t, rfl, hregion⟩)
    (fun m hm => yields_region_none hm) hentries.2 hrest
  exact ⟨n, t :: tss.flatten, .rule (.seq ht (.seq yields_skipped htss)), hn,
    .cons hregion (forall₂_flatten hregions)⟩

end

/-! ### Targets -/

section
variable {α : Type} {c : ShapeConstraint α} {m : Mark} {rest : List Char}

def superscript : ℕ → List Char
  | 2 => ['²']
  | 3 => ['³']
  | _ => []

theorem yields_order {order : ℕ} (horder : order ∈ [1, 2, 3])
    (hm : m.rest = superscript order ++ rest)
    (hrest : ∀ c ∈ rest.head?, c ≠ '²' ∧ c ≠ '³') : ∃ n, m.Spans (superscript order) n ∧
      modelGrammar.Yields false (.opt (.rule .order)) m
        (some (n, if order = 1 then [] else [.node .order m n []])) := by
  simp only [List.mem_cons, List.not_mem_nil, or_false] at horder
  rcases horder with rfl | rfl | rfl
  · refine ⟨m, .refl m, .opt_none (.rule_not (.alt_second ?_ ?_))⟩
    · exact Grammar.yields_exactly_none fun d hd => (hrest d (by rwa [hm] at hd)).1
    · exact Grammar.yields_exactly_none fun d hd => (hrest d (by rwa [hm] at hd)).2
  · obtain ⟨n, hn, hyields⟩ := Grammar.yields_exactly (g := modelGrammar) (s := true) hm
    exact ⟨n, hn, .opt_some (.rule (.alt_first hyields))⟩
  · obtain ⟨n, hn, hyields⟩ := Grammar.yields_exactly (g := modelGrammar) (s := true) hm
    have hnot : modelGrammar.Yields true (.exactly '²') m none := by
      refine Grammar.yields_exactly_none fun d hd => ?_
      rw [hm] at hd
      cases hd
      decide
    exact ⟨n, hn, .opt_some (.rule (.alt_second hnot hyields))⟩

theorem yields_partial (hm : m.rest = '∂' :: rest) : ∃ n, n.rest = rest ∧
    modelGrammar.Yields false (.rule .differential) m (some (n, [.node .differential m n []])) := by
  obtain ⟨n, hn, hyields⟩ := Grammar.yields_exactly (g := modelGrammar) (s := true) hm
  exact ⟨n, hn.rest_eq hm, .rule (.alt_first hyields)⟩

theorem yields_derivative {name : String} {order : ℕ} (hname : isIdentifier name = true)
    (horder : order ∈ [1, 2, 3])
    (hm : m.rest = '∂' :: (superscript order ++ 'f' :: '/' :: '∂' ::
      (name.toList ++ (superscript order ++ ' ' :: rest)))) :
    ∃ n parts, modelGrammar.Yields false (.rule .derivativeTarget) m
      (some (n, [.node .derivativeTarget m n parts])) ∧
      n.rest = ' ' :: rest ∧ ∀ source t,
      derivativeOf (α := α) source t parts = .ok (name, order) := by
  obtain ⟨k, hk, hpartial⟩ := yields_partial hm
  obtain ⟨l, hspans, horder₁⟩ := yields_order horder hk (by simp)
  have hl := hspans.rest_eq hk
  obtain ⟨q, hq, hf⟩ := Grammar.yields_exactly (g := modelGrammar) (s := false) hl
  obtain ⟨w, hw, hslash⟩ := Grammar.yields_exactly (g := modelGrammar) (s := false) (hq.rest_eq hl)
  obtain ⟨y, hy, hpartial'⟩ := yields_partial (hw.rest_eq (hq.rest_eq hl))
  have hstop : ∀ c ∈ (superscript order ++ ' ' :: rest).head?, isIdentifierChar c = false := by
    simp only [List.mem_cons, List.not_mem_nil, or_false] at horder
    rcases horder with rfl | rfl | rfl <;> simp [superscript] <;> decide
  obtain ⟨z, ts, hv, hz, hnameOf⟩ := yields_variable hname hy hstop
  obtain ⟨n, hn, horder₂⟩ := yields_order horder hz (by simp)
  refine ⟨n, _, .rule (.seq hpartial
    (.seq horder₁ (.seq hf (.seq hslash (.seq hpartial' (.seq hv horder₂)))))),
    hn.rest_eq hz, fun source t => ?_⟩
  have hchars : (Token.node Rule.order k l []).chars = superscript order := hspans.until_eq
  have hchars' : (Token.node Rule.order z n []).chars = superscript order := hn.until_eq
  simp only [List.mem_cons, List.not_mem_nil, or_false] at horder
  rcases horder with rfl | rfl | rfl
  · simp [derivativeOf, hnameOf, Token.rule]
  · simp [derivativeOf, hnameOf, Token.rule, orderOf, hchars, hchars', superscript]
  · simp [derivativeOf, hnameOf, Token.rule, orderOf, hchars, hchars', superscript]

/-- The variable and the order of the derivative that is constrained. -/
def derivative? (c : ShapeConstraint α) :
    Option (String × ℕ) := c.variableName.map fun name => (name, c.derivations)

theorem yields_target
    (hsubject : c.variableName = none ∧ c.derivations = 0 ∨
      c.variableName ≠ none ∧ c.derivations ∈ [1, 2, 3])
    (hname : ∀ name ∈ c.variableName, isIdentifier name = true)
    (hm : m.rest = c.subjectText.toList ++ ' ' :: rest) :
    ∃ n t, modelGrammar.Yields false (.rule .constraintTarget) m (some (n, [t])) ∧
      n.rest = ' ' :: rest ∧
      ∀ source, targetOf (α := α) source t = .ok c.derivative? := by
  cases hvariable : c.variableName with
  | none =>
    have hm : m.rest = 'f' :: ' ' :: rest := by simpa [subjectText, hvariable] using hm
    have hnot : modelGrammar.Yields false (.rule .derivativeTarget) m none := by
      refine .rule_not (.seq_not (.rule_not (.alt_second ?_ ?_))) <;>
        exact Grammar.yields_exactly_none (by simp [hm])
    obtain ⟨n, hn, hyields⟩ := Grammar.yields_exactly (g := modelGrammar) (s := false) hm
    have hfunction : modelGrammar.Yields false (.rule .functionTarget) m
        (some (n, [.node .functionTarget m n []])) :=
      .rule hyields
    refine ⟨n, _, .rule (.alt_second hnot hfunction), hn.rest_eq hm, fun source => ?_⟩
    rw [derivative?, hvariable]
    rfl
  | some name =>
    have horder : c.derivations ∈ [1, 2, 3] :=
      (hsubject.resolve_left fun h => by simp [hvariable] at h).2
    have hm : m.rest = '∂' :: (superscript c.derivations ++
        'f' :: '/' :: '∂' :: (name.toList ++ (superscript c.derivations ++ ' ' :: rest))) := by
      rw [hm, subjectText, hvariable]
      simp only [List.mem_cons, List.not_mem_nil, or_false] at horder
      rcases horder with h | h | h <;> rw [h] <;> simp [superscript, String.toList_append]
    obtain ⟨n, parts, hyields, hn, hread⟩ :=
      yields_derivative (α := α) (hname name hvariable) horder hm
    refine ⟨n, _, .rule (.alt_first hyields), hn, fun source => ?_⟩
    rw [derivative?, hvariable]
    show (do return some (← derivativeOf source _ parts)) = _
    rw [hread]
    rfl

end

end ModalBounds.ShapeConstraint
