import ModalBounds.Proofs.Constraint.Written
import ModalBounds.Proofs.Syntax.Trimming

/-!
# Blocks of constraints

A block is read as its lines are, each without its comment and the white space at its ends
(`readLines_eq_ok`). White space at the ends of a line does not matter (`readLine_trimBlanks`), but
a `#` starts a comment also between quotes, so that lines are read as a block exactly if there is
none in them (`readBlock_intercalate_iff`).
-/

namespace ModalBounds

namespace Token.Like

variable {t t' : Token Rule}

theorem rule_eq (h : Token.Like t t') : t'.rule = t.rule := by
  cases h
  rfl

theorem parts (h : Token.Like t t') : List.Forall₂ Token.Like t.parts t'.parts := by
  cases h with
  | node _ hts => exact hts

theorem chars_eq (h : Token.Like t t') (hsolid : t.rule.isSolid = true) : t'.chars = t.chars := by
  cases h with
  | node hchars _ => exact (hchars hsolid).symm

end Token.Like

namespace ShapeConstraint

/-! ### Tokens at other places -/

section
variable {t t' : Token Rule} {ts ts' : List (Token Rule)} {m : Mark}

theorem nameOf?_of_like (ht : modelGrammar.Occurs m t) (hrule : t.rule = .constraintVar)
    (h : Token.Like t t') : nameOf? t' = nameOf? t := by
  have hyields := ht.yields
  rw [hrule] at hyields
  have hinner := ht.parts
  obtain ⟨_, hparts⟩ := h
  rcases hparts with _ | ⟨@⟨r, k, l, k', l', us, us', hchars, hus⟩, _ | ⟨_, _⟩⟩
  · rfl
  · have hmem : r ∈ [Rule.identifier, Rule.quotedIdentifier] :=
      hyields.rule_mem _ (List.mem_singleton_self _)
    have hquoted := (hinner _ (List.mem_singleton_self _)).yields.rule_mem
    simp only [List.mem_cons, List.not_mem_nil, or_false] at hmem
    have hwhole : some (String.ofList (k'.until l')) = some (String.ofList (k.until l)) := by
      rcases hmem with rfl | rfl <;> rw [hchars rfl]
    rcases hmem with rfl | rfl
    · exact hwhole
    · rcases hus with _ | ⟨hv, _ | ⟨_, _⟩⟩
      · exact hwhole
      · -- a name between quotes
        have hname : _ ∈ [Rule.quotedName] := hquoted _ (List.mem_singleton_self _)
        show some (String.ofList _) = some (String.ofList _)
        rw [hv.chars_eq (by rw [List.mem_singleton.1 hname]; rfl)]
      · exact hwhole
  · simp [nameOf?, Token.parts]

theorem orders_of_like (h : List.Forall₂ Token.Like ts ts') :
    (ts'.filter (·.rule == .order)).map orderOf = (ts.filter (·.rule == .order)).map orderOf := by
  induction h with
  | nil => rfl
  | @cons t t' _ _ ht _ ih =>
    simp only [List.filter_cons, ht.rule_eq]
    split
    · rename_i hrule
      rw [List.map_cons, List.map_cons, ih, orderOf, orderOf,
        ht.chars_eq (by rw [beq_iff_eq.1 hrule]; rfl)]
    · exact ih

theorem variable_of_like (hts : ∀ t ∈ ts, modelGrammar.Occurs m t)
    (h : List.Forall₂ Token.Like ts ts') :
    (ts'.find? (·.rule == .constraintVar)).bind nameOf? =
      (ts.find? (·.rule == .constraintVar)).bind nameOf? := by
  induction h with
  | nil => rfl
  | cons ht _ ih =>
    rw [List.forall_mem_cons] at hts
    simp only [List.find?_cons, ht.rule_eq]
    split
    · rename_i hrule
      exact nameOf?_of_like hts.1 (beq_iff_eq.1 hrule) ht
    · exact ih hts.2

end

section
variable {α : Type} {t t' : Token Rule} {ts ts' : List (Token Rule)} {m : Mark}
  {source source' : List Char}

theorem derivativeOf_of_like (hts : ∀ t ∈ ts, modelGrammar.Occurs m t)
    (h : List.Forall₂ Token.Like ts ts')
    {subject : String × ℕ} (hsubject : derivativeOf (α := α) source t ts = .ok subject) :
    derivativeOf (α := α) source' t' ts' = .ok subject := by
  unfold derivativeOf at hsubject ⊢
  rw [orders_of_like h, variable_of_like hts h]
  dsimp only at hsubject ⊢
  split at hsubject
  · cases hsubject
  · split at hsubject
    · exact hsubject
    · split at hsubject
      · rw [if_pos ‹_›]
        exact hsubject
      · cases hsubject
    · cases hsubject

theorem targetOf_of_like (ht : modelGrammar.Occurs m t) (h : Token.Like t t')
    {subject : Option (String × ℕ)}
    (hsubject : targetOf (α := α) source t = .ok subject) :
    targetOf (α := α) source' t' = .ok subject := by
  have hinner := ht.parts
  have hparts := h.parts
  unfold targetOf at hsubject ⊢
  generalize t.parts = ts at *
  generalize t'.parts = ts' at *
  split at hsubject
  · rcases hparts with _ | ⟨⟨_, _⟩, _ | _⟩
    exact hsubject
  · rename_i hrule
    rcases hparts with _ | ⟨⟨_, hts⟩, _ | _⟩
    obtain ⟨p, hp, hsubject⟩ := bind_eq_ok.1 hsubject
    have hp' : derivativeOf source' t' _ = .ok p :=
      derivativeOf_of_like (hinner _ (List.mem_singleton_self _)).parts hts hp
    split
    · rename_i heq
      cases heq
      exact (hrule rfl).elim
    · rename_i heq
      cases heq
      rw [hp']
      exact hsubject
    · rename_i heq
      exact absurd rfl (heq _ _ _ _)
  · cases hsubject

variable [Scalar α] [Numeral α]

theorem boundOf_of_like (hrule : t.rule = .bound) (h : Token.Like t t') {x : α}
    (hx : boundOf source t = .ok x) : boundOf source' t' = .ok x := by
  unfold boundOf at hx ⊢
  rw [h.chars_eq (by rw [hrule]; rfl)]
  dsimp only at hx ⊢
  split at hx
  · exact hx
  · cases hx

theorem intervalOf_of_like (ht : modelGrammar.Occurs m t) (hrule : t.rule = .boundInterval)
    (h : Token.Like t t') {x : Interval α} (hx : intervalOf source t = .ok x) :
    intervalOf source' t' = .ok x := by
  have hparts := h.parts
  have hbounds : ∀ u ∈ t.parts, u.rule = .bound := by
    have hyields := ht.yields
    rw [hrule] at hyields
    intro u hu
    have hmem : u.rule ∈ [Rule.bound, Rule.bound] := hyields.rule_mem u hu
    simpa using hmem
  unfold intervalOf at hx ⊢
  generalize t.parts = ts at *
  generalize t'.parts = ts' at *
  split at hx
  · rcases hparts with _ | ⟨hlower, _ | ⟨hupper, _ | _⟩⟩
    obtain ⟨l, hl, hx⟩ := bind_eq_ok.1 hx
    obtain ⟨u, hu, hx⟩ := bind_eq_ok.1 hx
    refine bind_eq_ok.2 ⟨l, boundOf_of_like (hbounds _ (by simp)) hlower hl, ?_⟩
    refine bind_eq_ok.2 ⟨u, boundOf_of_like (hbounds _ (by simp)) hupper hu, ?_⟩
    split at hx
    · exact hx
    · cases hx
    · cases hx
  · cases hx

theorem regionsOf_of_like (hts : ∀ t ∈ ts, modelGrammar.Occurs m t ∧ t.rule = .region)
    (h : List.Forall₂ Token.Like ts ts') {regions regions' : Collection α}
    (hregions : regionsOf source regions ts = .ok regions') :
    regionsOf source' regions ts' = .ok regions' := by
  induction h generalizing regions with
  | nil => exact hregions
  | @cons t t' _ _ ht _ ih =>
    rw [List.forall_mem_cons] at hts
    obtain ⟨⟨hoccurs, hrule⟩, hts⟩ := hts
    obtain ⟨u, us, hu, hus, hparts⟩ := parts_of_region hoccurs hrule
    have hinner := hoccurs.parts
    have hlike := ht.parts
    unfold regionsOf at hregions ⊢
    generalize t.parts = vs at *
    generalize t'.parts = vs' at *
    split at hregions
    · rename_i name interval
      cases hparts
      rcases hlike with _ | ⟨hname, _ | ⟨hinterval, _ | _⟩⟩
      dsimp only
      rw [nameOf?_of_like (hinner _ (by simp)) hu hname]
      split at hregions
      · obtain ⟨x, hx, hregions⟩ := bind_eq_ok.1 hregions
        exact bind_eq_ok.2
          ⟨x, intervalOf_of_like (hinner _ (by simp)) (hus _ (by simp)) hinterval hx,
            ih hts hregions⟩
      · cases hregions
    · cases hregions

theorem weightOf_of_like (ht : modelGrammar.Occurs m t) (hrule : t.rule = .weightClause)
    (h : Token.Like t t') {x : α}
    (hx : weightOf source t = .ok x) : weightOf source' t' = .ok x := by
  have hyields := ht.yields
  rw [hrule] at hyields
  have hbound : ∀ u ∈ t.parts, u.rule ∈ [Rule.bound] := hyields.rule_mem
  have hparts := h.parts
  unfold weightOf at hx ⊢
  generalize t.parts = ts at *
  generalize t'.parts = ts' at *
  split at hx
  · rcases hparts with _ | ⟨hu, _ | _⟩
    exact boundOf_of_like (List.mem_singleton.1 (hbound _ (by simp))) hu hx
  · cases hx

theorem optionsOf_of_like (hts : ∀ t ∈ ts, modelGrammar.Occurs m t)
    (h : List.Forall₂ Token.Like ts ts')
    {c c' : ShapeConstraint α} (hc : optionsOf source c ts = .ok c') :
    optionsOf source' c ts' = .ok c' := by
  induction h generalizing c with
  | nil => exact hc
  | cons ht _ ih =>
    rw [List.forall_mem_cons] at hts
    unfold optionsOf at hc ⊢
    rw [ht.rule_eq]
    split at hc
    · rename_i hrule
      obtain ⟨regions, hregions, hc⟩ := bind_eq_ok.1 hc
      exact bind_eq_ok.2
        ⟨regions, regionsOf_of_like (regions_of_regionList hts.1 hrule) ht.parts hregions,
          ih hts.2 hc⟩
    · rename_i hrule
      obtain ⟨weight, hweight, hc⟩ := bind_eq_ok.1 hc
      exact bind_eq_ok.2 ⟨weight, weightOf_of_like hts.1 hrule ht hweight, ih hts.2 hc⟩
    · exact ih hts.2 hc

theorem ofToken_of_like {n : Mark} (hline : modelGrammar.Yields false lineBody m (some (n, ts)))
    (h : List.Forall₂ Token.Like ts ts') {r r' : Rule} {k l k' l' : Mark} {c : ShapeConstraint α}
    (hc : ofToken source (.node r k l ts) = .ok c) :
    ofToken source' (.node r' k' l' ts') = .ok c := by
  have hts := hline.occurs
  obtain ⟨subject, interval, rest, hinterval, rfl⟩ := parts_of_line hline
  rcases h with _ | ⟨hsubject, _ | ⟨htarget, hrest⟩⟩
  rw [List.forall_mem_cons, List.forall_mem_cons] at hts
  obtain ⟨subject, hs, hc⟩ := bind_eq_ok.1 hc
  obtain ⟨target, ht, hc⟩ := bind_eq_ok.1 hc
  refine bind_eq_ok.2 ⟨subject, targetOf_of_like hts.1 hsubject hs, ?_⟩
  exact bind_eq_ok.2
    ⟨target, intervalOf_of_like hts.2.1 hinterval htarget ht, optionsOf_of_like hts.2.2 hrest hc⟩

end

/-! ### White space at the ends of a line -/

/-- Whether a pattern describes a line, or the rest of one, up to its end. -/
def isRestOfLine : Pattern Rule → Bool
  | .seq a b => a.shuns reserved false Rule.isInner && isRestOfLine b
  | .rule r => r == .endOfInput
  | _ => false

theorem yields_restOfLine {p : Pattern Rule} (hp : isRestOfLine p = true) {m m' n : Mark}
    {ts : List (Token Rule)}
    (h : modelGrammar.Yields false p m (some (n, ts))) (hm : m.Trims m') :
    n.rest = [] ∧ ∃ n' ts',
    modelGrammar.Yields false p m' (some (n', ts')) ∧ List.Forall₂ Token.Like ts ts' := by
  induction p generalizing m m' ts with
  | seq a b _ ihb =>
    rw [isRestOfLine, Bool.and_eq_true] at hp
    obtain ⟨k, us, vs, ha, hb, rfl⟩ := Grammar.yields_seq_some.1 h
    obtain ⟨_, ha', hfirst⟩ := yields_of_trims hp.1 ha hm
    cases hfirst with
    | some hk hus _ =>
      obtain ⟨hn, n', vs', hb', hvs⟩ := ihb hp.2 hb hk
      exact ⟨hn, n', _, .seq ha' hb', List.rel_append hus hvs⟩
  | rule r =>
    obtain rfl := beq_iff_eq.1 hp
    obtain ⟨_, hbody, rfl⟩ := Grammar.yields_rule_some h
    cases hbody with
    | atEnd hm' => exact ⟨hm', m', _, .rule (.atEnd (hm.eq_nil hm')), .cons (.node nofun .nil) .nil⟩
  | _ => cases hp

section
variable {α : Type} [Scalar α] [Numeral α] {line : List Char} {c c' : ShapeConstraint α}

theorem pieces_of_readLine {P : List Char → Prop} (hP : Pieces P) (h : readLine line = .ok c) :
    P line := by
  obtain ⟨n, ts, hline, -⟩ := readLine_eq_ok.1 h
  obtain ⟨cs, hcs, hPcs⟩ := hP.exists_spans (p := lineBody) (by decide) hline
  have hend := (yields_restOfLine (p := lineBody) (by decide) hline
    ⟨[], by simp, (List.append_nil _).symm⟩).1
  have hspans : line = line.takeWhile isBlank ++ cs ++ n.rest :=
    ((Mark.spans_skipBlanks isBlank _).trans hcs).rest
  rw [hend, List.append_nil] at hspans
  rw [hspans]
  exact hP.append (hP.blanks fun c hc => List.mem_takeWhile_imp hc) hPcs

/-- Without the white space at its ends a line is read as the same constraint. -/
theorem readLine_trimBlanks (h : readLine line = .ok c) : readLine (trimBlanks line) = .ok c := by
  obtain ⟨n, ts, hline, hc⟩ := readLine_eq_ok.1 h
  have htrims :=
    trims_trimBlanks (pieces_of_readLine pieces_leading h) (pieces_of_readLine pieces_trailing h)
  obtain ⟨-, n', ts', hline', hts⟩ := yields_restOfLine (by decide) hline htrims
  exact readLine_eq_ok.2 ⟨n', ts', hline', ofToken_of_like hline hts hc⟩

theorem ne_nil_of_readLine (h : readLine line = .ok c) : line ≠ [] := by
  rintro rfl
  have hnone : (readLine (α := α) []).toOption = none := rfl
  rw [h] at hnone
  cases hnone

/-! ### Comments -/

/-- What a block reads of a line. -/
def codeOf (line : List Char) : List Char := trimBlanks (line.takeWhile (· != '#'))

theorem comment_not_mem (h : readLine line = .ok c) (hcode : readLine (codeOf line) = .ok c') :
    '#' ∉ line := by
  intro hmem
  obtain ⟨before, after, rfl, hbefore⟩ := List.eq_append_cons_of_mem hmem
  have hcut : (before ++ '#' :: after).takeWhile (· != '#') = before := by
    rw [List.takeWhile_append_of_pos, List.takeWhile_cons_of_neg (by simp), List.append_nil]
    intro d hd
    exact bne_iff_ne.2 fun heq => hbefore (heq ▸ hd)
  have hclosed : endsQuoted? false before = some false := by
    refine endsQuoted?_trimBlanks _ ?_
    rw [codeOf, hcut] at hcode
    exact pieces_of_readLine pieces_endsQuoted? hcode
  have hline := pieces_of_readLine pieces_endsQuoted? h
  rw [endsQuoted?_append, hclosed] at hline
  cases hline

theorem readLine_codeOf (h : readLine line = .ok c) (hline : '#' ∉ line) :
    readLine (codeOf line) = .ok c := by
  have hcut : line.takeWhile (· != '#') = line :=
    List.takeWhile_eq_self_iff.2 fun d hd => bne_iff_ne.2 fun heq => hline (heq ▸ hd)
  rw [codeOf, hcut]
  exact readLine_trimBlanks h

/-! ### Blocks -/

/-- What a block reads of its lines. -/
def codesOf (lines : List (List Char)) :
    List (List Char) := (lines.map codeOf).filter fun code => !code.isEmpty

theorem readLines_eq_ok {offset number : ℕ} {lines : List (List Char)}
    {cs : List (ShapeConstraint α)} :
    readLines offset number lines = .ok cs ↔
    List.Forall₂ (fun code c => readLine code = .ok c) (codesOf lines) cs := by
  induction lines generalizing offset number cs with
  | nil => simp [readLines, codesOf, eq_comm]
  | cons line lines ih =>
    rw [readLines, codesOf, List.map_cons, List.filter_cons, ← codesOf, codeOf]
    by_cases hempty : (trimBlanks (line.takeWhile (· != '#'))).isEmpty = true
    · rw [if_pos hempty, if_neg (by simp [hempty])]
      exact ih
    · rw [if_neg hempty, if_pos (by simp [hempty]), List.forall₂_cons_left_iff]
      constructor
      · intro h
        split at h
        · cases h
        · rename_i c hc
          obtain ⟨cs', hcs, h⟩ := bind_eq_ok.1 h
          cases h
          exact ⟨c, cs', hc, ih.1 hcs, rfl⟩
      · rintro ⟨c, cs', hc, hcs, rfl⟩
        rw [hc]
        exact bind_eq_ok.2 ⟨cs', ih.2 hcs, rfl⟩

theorem splitAt_of_not_mem {c : Char} {cs : List Char} (h : c ∉ cs) : splitAt c cs = [cs] := by
  induction cs with
  | nil => rfl
  | cons d cs ih =>
    rw [List.mem_cons, not_or] at h
    rw [splitAt, if_neg (Ne.symm h.1), ih h.2]

theorem splitAt_append {c : Char} {cs : List Char} (h : c ∉ cs) (rest : List Char) :
    splitAt c (cs ++ c :: rest) = cs :: splitAt c rest := by
  induction cs with
  | nil => simp [splitAt]
  | cons d cs ih =>
    rw [List.mem_cons, not_or] at h
    rw [List.cons_append, splitAt, if_neg (Ne.symm h.1), ih h.2]

theorem splitAt_intercalate {c : Char} {lines : List (List Char)} (hne : lines ≠ [])
    (h : ∀ line ∈ lines, c ∉ line) : splitAt c ([c].intercalate lines) = lines := by
  induction lines with
  | nil => contradiction
  | cons line lines ih =>
    rw [List.forall_mem_cons] at h
    cases lines with
    | nil => rw [List.intercalate_singleton, splitAt_of_not_mem h.1]
    | cons line' lines =>
      rw [List.intercalate_cons_cons, List.append_assoc, List.singleton_append, splitAt_append h.1,
        ih (by simp) h.2]

theorem readBlock_eq_ok {limits : Limits} {texts : List String} {cs : List (ShapeConstraint α)}
    (hlines : ∀ t ∈ texts, '\n' ∉ t.toList)
    (hbytes : ("\n".intercalate texts).utf8ByteSize ≤ limits.sourceBytes) :
    readBlock limits ("\n".intercalate texts) = .ok cs ↔
      List.Forall₂ (fun code c => readLine code = .ok c)
        (codesOf (texts.map String.toList)) cs := by
  have hcodes : codesOf (splitAt '\n' ("\n".intercalate texts).toList) =
      codesOf (texts.map String.toList) := by
    rcases eq_or_ne texts [] with rfl | hne
    · rfl
    · rw [String.toList_intercalate]
      refine congrArg codesOf (splitAt_intercalate (by simpa using hne) fun line hline => ?_)
      obtain ⟨t, ht, rfl⟩ := List.mem_map.1 hline
      exact hlines t ht
  rw [readBlock, bind_eq_ok, ← hcodes, ← readLines_eq_ok]
  constructor
  · rintro ⟨_, -, h⟩
    exact h
  · intro h
    exact ⟨(), Limits.checkSource_eq_ok.2 hbytes, h⟩

/-- Lines are read as a block as they are one by one, exactly if there is no `#` in them. -/
theorem readBlock_intercalate_iff {limits : Limits} {texts : List String}
    {cs : List (ShapeConstraint α)} (hlines : ∀ t ∈ texts, '\n' ∉ t.toList)
    (hread : List.Forall₂ (fun t c => readLine t.toList = .ok c) texts cs)
    (hbytes : ("\n".intercalate texts).utf8ByteSize ≤ limits.sourceBytes) :
    readBlock limits ("\n".intercalate texts) = .ok cs ↔ ∀ t ∈ texts, '#' ∉ t.toList := by
  rw [readBlock_eq_ok hlines hbytes]
  constructor
  · intro hcodes
    -- none of the lines is left out, as there are as many constraints
    have hall : codesOf (texts.map String.toList) = (texts.map String.toList).map codeOf := by
      refine List.filter_eq_self.2 (List.length_filter_eq_length_iff.1 ?_)
      rw [← codesOf, hcodes.length_eq, ← hread.length_eq, List.length_map, List.length_map]
    rw [hall, List.map_map, List.forall₂_map_left_iff] at hcodes
    have hboth : List.Forall₂ (fun t c => '#' ∉ t.toList ∧ readLine t.toList = .ok c) texts cs :=
      hread.mp (fun t c ht hcode => ⟨comment_not_mem ht hcode, ht⟩) hcodes
    exact ((List.forall₂_and_left _ _).1 hboth).1
  · intro hcomments
    have hcodes : List.Forall₂
        (fun t c => (!(codeOf t.toList).isEmpty) = true ∧ readLine (codeOf t.toList) = .ok c)
          texts cs := by
      refine ((List.forall₂_and_left _ _).2 ⟨hcomments, hread⟩).imp fun t c ht => ?_
      have hcode := readLine_codeOf ht.2 ht.1
      exact ⟨by simpa using ne_nil_of_readLine hcode, hcode⟩
    obtain ⟨hne, hcodes⟩ := (List.forall₂_and_left _ _).1 hcodes
    have hall : codesOf (texts.map String.toList) = (texts.map String.toList).map codeOf := by
      refine List.filter_eq_self.2 fun code hcode => ?_
      rw [List.map_map] at hcode
      obtain ⟨t, ht, rfl⟩ := List.mem_map.1 hcode
      exact hne t ht
    rw [hall, List.map_map, List.forall₂_map_left_iff]
    exact hcodes

end

theorem readBlock_intercalate_twoLines :
    readBlock {} ("\n".intercalate
      ["∂f/∂x in [0 .. inf], x in [0 .. 1]", "\t f in [-1 .. 2] weight: 2"]) =
      .ok [⟨⟨0, 1 / 0⟩, 1, some "x", 1, some ((∅ : Collection Float).insert "x" ⟨0, 1⟩)⟩,
        ⟨⟨-1, 2⟩, 2, none, 0, none⟩] := by
  have hfirst : readLine "∂f/∂x in [0 .. inf], x in [0 .. 1]".toList =
      .ok ⟨⟨0, 1 / 0⟩, 1, some "x", 1, some ((∅ : Collection Float).insert "x" ⟨0, 1⟩)⟩ :=
    toOption_eq_some.1 (by decide +kernel)
  have hsecond : readLine "\t f in [-1 .. 2] weight: 2".toList =
      .ok (⟨⟨-1, 2⟩, 2, none, 0, none⟩ : ShapeConstraint Float) :=
    toOption_eq_some.1 (by decide +kernel)
  exact (readBlock_intercalate_iff (by decide) (.cons hfirst (.cons hsecond .nil)) (by decide)).2
    (by decide)

/-- A `#` in a name begins a comment. -/
theorem readBlock_intercalate_numberSign : ∃ c : ShapeConstraint Float,
    readLine "∂f/∂'a#b' in [0 .. 1]".toList = .ok c ∧
      ∀ cs : List (ShapeConstraint Float),
        readBlock {} ("\n".intercalate ["∂f/∂'a#b' in [0 .. 1]"]) ≠ .ok cs := by
  refine ⟨onDerivative ⟨0, 1⟩ "a#b" 1, toOption_eq_some.1 (by decide +kernel), fun cs h => ?_⟩
  have hnone : (readBlock (α := Float) {} ("\n".intercalate ["∂f/∂'a#b' in [0 .. 1]"])).toOption =
      none := by
    decide +kernel
  rw [h] at hnone
  cases hnone

end ShapeConstraint

end ModalBounds
