import ModalBounds.Syntax.Constraint
import ModalBounds.Proofs.Syntax.Written

/-!
# Texts without the blanks at their ends

Between its quoted names a match has no white space but the blanks between its parts, and no `#`
(`Pieces.exists_spans`). Where blanks at the end of a text are left out, every pattern of a
constraint matches what it matched before, up to the places of the tokens (`yields_of_trims`).
-/

namespace ModalBounds

/-! ### Reserved characters -/

def whiteSpaces : List Char :=
  [0x9, 0xA, 0xB, 0xC, 0xD, 0x20, 0x85, 0xA0, 0x1680, 0x2000, 0x2001, 0x2002, 0x2003, 0x2004,
    0x2005, 0x2006, 0x2007, 0x2008, 0x2009, 0x200A, 0x2028, 0x2029, 0x202F, 0x205F,
    0x3000].map Char.ofNat

theorem mem_whiteSpaces {c : Char} (h : isWhiteSpace c = true) : c ∈ whiteSpaces := by
  refine List.mem_map.2 ⟨c.toNat, ?_, Char.ofNat_toNat c⟩
  simp [isWhiteSpace] at h ⊢
  omega

/-- The characters that stand between quotes, as quotes, or as blanks between the parts of a
rule. -/
def reserved : List Char := '#' :: '\'' :: whiteSpaces

theorem isWhiteSpace_of_isBlank {c : Char} (h : isBlank c = true) : isWhiteSpace c = true := by
  simp only [isBlank, Bool.or_eq_true, beq_iff_eq] at h
  rcases h with ((rfl | rfl) | rfl) | rfl <;> decide

theorem mem_reserved_of_isBlank {c : Char} (h : isBlank c = true) : c ∈ reserved :=
  List.mem_cons_of_mem _ (List.mem_cons_of_mem _ (mem_whiteSpaces (isWhiteSpace_of_isBlank h)))

/-- Whether no character of a pattern is among the given ones, given the rules of which this holds.
`anchors` says whether the ends of the text may matter. -/
def Pattern.shuns {ρ : Type} (cs : List Char) (anchors : Bool) (rules : ρ → Bool) : Pattern ρ → Bool
  | atStart => anchors
  | atEnd => anchors
  | char p => cs.all fun c => !p c
  | blank => true
  | seq a b => a.shuns cs anchors rules && b.shuns cs anchors rules
  | alt a b => a.shuns cs anchors rules && b.shuns cs anchors rules
  | opt a => a.shuns cs anchors rules
  | star a => a.shuns cs anchors rules
  | notHere a => a.shuns cs anchors rules
  | rule r => rules r

/-- Only the inside of quotes is unrestricted. -/
def Rule.isOpen (r : Rule) : Bool := r != .quotedName

theorem shuns_body {r : Rule} (hr : r.isOpen = true) (hquoted : r ≠ .quotedIdentifier) :
    r.body.shuns reserved true Rule.isOpen = true := by
  cases r <;> first | contradiction | decide

/-! ### What a match is made of -/

/-- A property of texts that pieces of a constraint have, and so have texts made of them. -/
structure Pieces (P : List Char → Prop) : Prop where
  nil : P []
  append {cs ds : List Char} : P cs → P ds → P (cs ++ ds)
  char {c : Char} : c ∉ reserved → P [c]
  blanks {cs : List Char} : (∀ c ∈ cs, isBlank c = true) → P cs
  quoted {cs : List Char} : '\'' ∉ cs → P ('\'' :: (cs ++ ['\'']))

theorem Pieces.exists_spans {P : List Char → Prop} (hP : Pieces P) {s : Bool}
    {p : Pattern Rule} {m n : Mark}
    {ts : List (Token Rule)} (hp : p.shuns reserved true Rule.isOpen = true)
    (h : modelGrammar.Yields s p m (some (n, ts))) : ∃ cs, m.Spans cs n ∧ P cs := by
  generalize hr : some (n, ts) = r at h
  induction h generalizing n ts with
  | atStart | atEnd | opt_none | star_done | notHere => cases hr; exact ⟨[], .refl _, hP.nil⟩
  | atStart_not | atEnd_not | char_not | seq_not | notHere_not | rule_not => cases hr
  | @char _ _ _ _ c hc hpc =>
    cases hr
    refine ⟨[c], Mark.spans_of_next? hc, hP.char fun hmem => ?_⟩
    have := List.all_eq_true.1 hp c hmem
    simp [hpc] at this
  | @blank _ m =>
    cases hr
    exact ⟨_, Mark.spans_skipBlanks isBlank m, hP.blanks fun c hc => List.mem_takeWhile_imp hc⟩
  | @seq _ a b _ k us r _ _ iha ihb =>
    cases r with
    | none => cases hr
    | some r =>
      cases hr
      obtain ⟨cs, hcs, hPcs⟩ := iha (Bool.and_eq_true_iff.1 hp).1 rfl
      obtain ⟨ds, hds, hPds⟩ := ihb (Bool.and_eq_true_iff.1 hp).2 rfl
      exact ⟨cs ++ ds, hcs.trans hds, hP.append hPcs hPds⟩
  | @star_more _ a _ k us r _ _ iha ihb =>
    cases r with
    | none => cases hr
    | some r =>
      cases hr
      obtain ⟨cs, hcs, hPcs⟩ := iha hp rfl
      obtain ⟨ds, hds, hPds⟩ := ihb hp rfl
      exact ⟨cs ++ ds, hcs.trans hds, hP.append hPcs hPds⟩
  | alt_first _ ih => exact ih (Bool.and_eq_true_iff.1 hp).1 hr
  | alt_second _ _ _ ih => exact ih (Bool.and_eq_true_iff.1 hp).2 hr
  | opt_some _ ih => exact ih hp hr
  | @rule _ r m k us h ih =>
    cases hr
    by_cases hquoted : r = .quotedIdentifier
    -- quotes are opened and closed in one piece
    · subst hquoted
      obtain ⟨cs, -, hcs, hspans⟩ := quoted_of_yields h
      exact ⟨_, hspans, hP.quoted hcs⟩
    · exact ih (shuns_body hp hquoted) rfl

/-! ### Without the blanks at the end -/

namespace Mark

/-- The same place in a text and in the text without some blanks at its end. -/
def Trims (m m' : Mark) : Prop := ∃ bs, (∀ c ∈ bs, isBlank c = true) ∧ m.rest = m'.rest ++ bs

variable {m m' n : Mark}

theorem Trims.eq_nil (h : m.Trims m') (hm : m.rest = []) : m'.rest = [] := by
  obtain ⟨bs, -, hrest⟩ := h
  rw [hm] at hrest
  exact (List.append_eq_nil_iff.1 hrest.symm).1

theorem Trims.skipBlanks (h : m.Trims m') :
    (skipBlanks isBlank m).Trims (skipBlanks isBlank m') := by
  obtain ⟨bs, hbs, hrest⟩ := h
  show ∃ bs, _ ∧ m.rest.dropWhile isBlank = m'.rest.dropWhile isBlank ++ bs
  rw [hrest]
  by_cases hall : ∀ c ∈ m'.rest, isBlank c = true
  · refine ⟨[], by simp, ?_⟩
    rw [List.dropWhile_append_of_pos hall, List.append_nil, List.dropWhile_eq_nil_iff.2 hbs,
      List.dropWhile_eq_nil_iff.2 hall]
  · refine ⟨bs, hbs, ?_⟩
    rw [List.dropWhile_append, if_neg]
    simpa [List.isEmpty_iff, List.dropWhile_eq_nil_iff] using hall

theorem Trims.of_spans (h : m.Trims m') {c : Char} (hc : isBlank c = false) (hm : m.Spans [c] n) :
    ∃ n', m'.Spans [c] n' ∧ n.Trims n' ∧ m'.next? = some (c, n') := by
  obtain ⟨bs, hbs, hrest⟩ := h
  obtain ⟨o, i, rest⟩ := m'
  rw [hm.rest] at hrest
  cases rest with
  | nil =>
    have hblank := hbs c (by rw [← List.nil_append bs, ← hrest]; simp)
    rw [hc] at hblank
    cases hblank
  | cons d rest =>
    obtain ⟨rfl, htail⟩ := List.cons.inj hrest
    exact ⟨⟨o + c.utf8Size, i + 1, rest⟩, ⟨rfl, rfl, rfl⟩, ⟨bs, hbs, htail⟩, rfl⟩

theorem Trims.next? (h : m.Trims m') {c : Char} (hc : c ∈ m'.rest.head?) :
    ∃ n, m.next? = some (c, n) := by
  obtain ⟨bs, -, hrest⟩ := h
  obtain ⟨rest, hm'⟩ : ∃ rest, m'.rest = c :: rest := by
    cases hrest' : m'.rest with
    | nil => simp [hrest'] at hc
    | cons d rest =>
      rw [hrest'] at hc
      cases hc
      exact ⟨rest, rfl⟩
  obtain ⟨o, i, _⟩ := m
  obtain rfl := hrest.trans (congrArg (· ++ bs) hm')
  exact ⟨_, rfl⟩

end Mark

/-- Whether no blanks can stand in a match, given the rules of which this holds. -/
def Pattern.isSolid {ρ : Type} (rules : ρ → Bool) : Pattern ρ → Bool
  | blank => false
  | seq a b => a.isSolid rules && b.isSolid rules
  | alt a b => a.isSolid rules && b.isSolid rules
  | opt a => a.isSolid rules
  | star a => a.isSolid rules
  | rule r => rules r
  | _ => true

namespace Rule

/-- The rules whose matches have no blanks in them, but between quotes. -/
def isSolid (r : Rule) : Bool :=
  r ∈ [identifier, quotedIdentifier, quotedName, number, differential, order, constraintVar, bound]

/-- The rules between the ends of a text. -/
def isInner (r : Rule) : Bool := r ∉ [endOfInput, expressionFile, constraintLine, quotedName]

theorem isSolid_body {r : Rule} (hr : r.isSolid = true) : r.body.isSolid isSolid = true := by
  cases r <;> first | contradiction | decide

theorem shuns_innerBody {r : Rule} (hr : r.isInner = true) (hquoted : r ≠ quotedIdentifier) :
    r.body.shuns reserved false isInner = true := by
  cases r <;> first | contradiction | decide

end Rule

/-- Tokens of the same rules with the same texts, where no blanks can end these, at other places. -/
inductive Token.Like : Token Rule → Token Rule → Prop
  | node {r : Rule} {m n m' n' : Mark} {ts ts' : List (Token Rule)} :
      (r.isSolid = true → m.until n = m'.until n') → List.Forall₂ Token.Like ts ts' →
      Token.Like (.node r m n ts) (.node r m' n' ts')

/-- A match in a text, and one in the text without some blanks at its end. -/
inductive Match.Trims (solid : Prop) (m m' : Mark) : Match Rule → Match Rule → Prop
  | none : Match.Trims solid m m' none none
  | some {n n' : Mark} {ts ts' : List (Token Rule)} : n.Trims n' → List.Forall₂ Token.Like ts ts' →
      (solid → ∃ cs, m.Spans cs n ∧ m'.Spans cs n') →
      Match.Trims solid m m' (some (n, ts)) (some (n', ts'))

namespace Match.Trims

variable {solid solid' : Prop} {m m' n n' : Mark} {r r' : Match Rule}

theorem refl (hm : m.Trims m') : Match.Trims solid m m' (.some (m, [])) (.some (m', [])) :=
  .some hm .nil fun _ => ⟨[], .refl m, .refl m'⟩

theorem mono (h : Match.Trims solid m m' r r') (hsolid : solid' → solid) :
    Match.Trims solid' m m' r r' := by
  cases h with
  | none => exact .none
  | some hn hts hcs => exact .some hn hts fun h => hcs (hsolid h)

theorem after {ts ts' : List (Token Rule)} (h : Match.Trims solid n n' r r')
    (hts : List.Forall₂ Token.Like ts ts')
    (hsolid : solid' → solid ∧ ∃ cs, m.Spans cs n ∧ m'.Spans cs n') :
    Match.Trims solid' m m' (r.after ts) (r'.after ts') := by
  cases h with
  | none => exact .none
  | some hk hus hcs =>
    refine .some hk (List.rel_append hts hus) fun h => ?_
    obtain ⟨hsolid, cs, hn, hn'⟩ := hsolid h
    obtain ⟨ds, hk, hk'⟩ := hcs hsolid
    exact ⟨cs ++ ds, hn.trans hk, hn'.trans hk'⟩

end Match.Trims

section
variable {s : Bool} {m m' n : Mark} {ts : List (Token Rule)}

theorem quoted_of_append {cs rest rest' bs : List Char} (hbs : ∀ c ∈ bs, isBlank c = true)
    (h : '\'' :: (cs ++ '\'' :: rest) = rest' ++ bs) :
    ∃ rest'', rest' = '\'' :: (cs ++ '\'' :: rest'') := by
  have happend : ('\'' :: (cs ++ ['\''])) ++ rest = rest' ++ bs := by simpa using h
  rcases List.append_eq_append_iff.1 happend with ⟨as, hrest', -⟩ | ⟨as, htext, hblank⟩
  · exact ⟨as, by rw [hrest']; simp⟩
  · rcases List.eq_nil_or_concat as with rfl | ⟨as, c, rfl⟩
    · exact ⟨[], by rw [List.append_nil] at htext; rw [← htext]⟩
    · -- the closing quote would be among the blanks
      have hquote : c = '\'' := by
        have hlast := congrArg List.getLast? htext
        simp [List.getLast?_append, List.getLast?_cons] at hlast
        exact hlast.symm
      have := hbs c (by rw [hblank]; simp)
      rw [hquote] at this
      cases this

theorem trims_quoted {r : Match Rule} (hm : m.Trims m')
    (h : modelGrammar.Yields s (.rule .quotedIdentifier) m r) :
    ∃ r', modelGrammar.Yields s (.rule .quotedIdentifier) m' r' ∧ Match.Trims True m m' r r' := by
  obtain ⟨bs, hbs, hrest⟩ := hm
  obtain ⟨r', h'⟩ := modelGrammar_steady.exists_yields (p := .rule .quotedIdentifier) rfl s m'
  refine ⟨r', h', ?_⟩
  have hspans {m : Mark} {q : Mark × List (Token Rule)}
      (h : modelGrammar.Yields s (.rule .quotedIdentifier) m (some q)) : ∃ cs rest,
      cs ≠ [] ∧ '\'' ∉ cs ∧
        m.rest = '\'' :: (cs ++ '\'' :: rest) := by
    obtain ⟨n, ts⟩ := q
    obtain ⟨us, hbody, -⟩ := Grammar.yields_rule_some h
    obtain ⟨cs, hne, hcs, hspans⟩ := quoted_of_yields hbody
    exact ⟨cs, n.rest, hne, hcs, by rw [hspans.rest]; simp⟩
  cases r with
  | none =>
    cases r' with
    | none => exact .none
    | some q =>
      -- a name that ends before the trimmed blanks would have matched with them, too
      obtain ⟨cs, rest, hne, hcs, hm'⟩ := hspans h'
      rw [hm', List.cons_append, List.append_assoc, List.cons_append] at hrest
      obtain ⟨_, _, _, -, -, hquoted⟩ := yields_quoted s hne hcs hrest
      cases h.unique hquoted
  | some q =>
    obtain ⟨cs, rest, hne, hcs, hmrest⟩ := hspans h
    obtain ⟨rest', hm'⟩ := quoted_of_append hbs (hmrest.symm.trans hrest)
    obtain ⟨k, l, n, hkl, hn, hquoted⟩ := yields_quoted s hne hcs hmrest
    obtain ⟨k', l', n', hkl', hn', hquoted'⟩ := yields_quoted s hne hcs hm'
    cases h.unique hquoted
    cases h'.unique hquoted'
    refine .some ⟨bs, hbs, ?_⟩ ?_ fun _ => ⟨_, hn, hn'⟩
    · rw [hn.rest, hn'.rest, List.append_assoc] at hrest
      exact List.append_cancel_left hrest
    · cases s with
      | true => exact .nil
      | false =>
        have hname : Token.Like (.node .quotedName k l []) (.node .quotedName k' l' []) :=
          .node (fun _ => by rw [hkl.until_eq, hkl'.until_eq]) .nil
        exact .cons (.node (fun _ => by rw [hn.until_eq, hn'.until_eq]) (.cons hname .nil)) .nil

/-- Every match in a text is one in the text without some blanks at its end, and the other way
around. -/
theorem yields_of_trims {p : Pattern Rule} {r : Match Rule}
    (hp : p.shuns reserved false Rule.isInner = true)
    (h : modelGrammar.Yields s p m r) (hm : m.Trims m') :
    ∃ r', modelGrammar.Yields s p m' r' ∧
      Match.Trims (p.isSolid Rule.isSolid = true) m m' r r' := by
  -- what follows a match starts at marks that trim in turn, so the hypothesis goes along
  induction h generalizing m' with
  | atStart | atStart_not | atEnd | atEnd_not => cases hp
  -- a pattern that shuns blanks reads none, so what it reads is not among those cut off
  | @char _ p m n c hc hpc =>
    have hblank : isBlank c = false := by
      rw [Bool.eq_false_iff]
      intro hblank
      have := List.all_eq_true.1 hp c (mem_reserved_of_isBlank hblank)
      simp [hpc] at this
    obtain ⟨n', hn', htrims, hnext⟩ := hm.of_spans hblank (Mark.spans_of_next? hc)
    exact ⟨_, .char hnext hpc, .some htrims .nil fun _ => ⟨_, Mark.spans_of_next? hc, hn'⟩⟩
  | char_not hnot =>
    refine ⟨none, Grammar.yields_char_none fun c hc => ?_, .none⟩
    obtain ⟨n, hn⟩ := hm.next? hc
    exact hnot c n hn
  | blank => exact ⟨_, .blank, .some hm.skipBlanks .nil nofun⟩
  | seq _ _ iha ihb =>
    rw [Pattern.shuns, Bool.and_eq_true] at hp
    obtain ⟨_, ha, hfirst⟩ := iha hp.1 hm
    cases hfirst with
    | some hn hts hsolid =>
      obtain ⟨_, hb, hrest⟩ := ihb hp.2 hn
      exact ⟨_, .seq ha hb, hrest.after hts fun h =>
        ⟨(Bool.and_eq_true_iff.1 h).2, hsolid (Bool.and_eq_true_iff.1 h).1⟩⟩
  | seq_not _ iha =>
    rw [Pattern.shuns, Bool.and_eq_true] at hp
    obtain ⟨_, ha, hfirst⟩ := iha hp.1 hm
    cases hfirst
    exact ⟨_, .seq_not ha, .none⟩
  | alt_first _ iha =>
    rw [Pattern.shuns, Bool.and_eq_true] at hp
    obtain ⟨_, ha, hfirst⟩ := iha hp.1 hm
    cases hfirst with
    | some hn hts hsolid =>
      exact ⟨_, .alt_first ha, .some hn hts fun h => hsolid (Bool.and_eq_true_iff.1 h).1⟩
  | alt_second _ _ iha ihb =>
    rw [Pattern.shuns, Bool.and_eq_true] at hp
    obtain ⟨_, ha, hfirst⟩ := iha hp.1 hm
    cases hfirst
    obtain ⟨_, hb, hsecond⟩ := ihb hp.2 hm
    exact ⟨_, .alt_second ha hb, hsecond.mono fun h => (Bool.and_eq_true_iff.1 h).2⟩
  | opt_some _ ih =>
    obtain ⟨_, ha, hfirst⟩ := ih hp hm
    cases hfirst with
    | some hn hts hsolid => exact ⟨_, .opt_some ha, .some hn hts hsolid⟩
  | opt_none _ ih =>
    obtain ⟨_, ha, hfirst⟩ := ih hp hm
    cases hfirst
    exact ⟨_, .opt_none ha, .refl hm⟩
  | star_more _ _ iha ihb =>
    obtain ⟨_, ha, hfirst⟩ := iha hp hm
    cases hfirst with
    | some hn hts hsolid =>
      obtain ⟨_, hb, hrest⟩ := ihb hp hn
      exact ⟨_, .star_more ha hb, hrest.after hts fun h => ⟨h, hsolid h⟩⟩
  | star_done _ ih =>
    obtain ⟨_, ha, hfirst⟩ := ih hp hm
    cases hfirst
    exact ⟨_, .star_done ha, .refl hm⟩
  | notHere _ ih =>
    obtain ⟨_, ha, hfirst⟩ := ih hp hm
    cases hfirst
    exact ⟨_, .notHere ha, .refl hm⟩
  | notHere_not _ ih =>
    obtain ⟨_, ha, hfirst⟩ := ih hp hm
    cases hfirst
    exact ⟨_, .notHere_not ha, .none⟩
  -- a quoted name may hold blanks: it ends with its quote, and has a lemma of its own
  | @rule s r m n us h ih =>
    by_cases hquoted : r = .quotedIdentifier
    · subst hquoted
      obtain ⟨r', hr', htrims⟩ := trims_quoted hm (.rule h)
      exact ⟨r', hr', htrims.mono fun _ => trivial⟩
    · obtain ⟨_, hbody, htrims⟩ := ih (Rule.shuns_innerBody hp hquoted) hm
      cases htrims with
      | @some _ n' _ us' hn hus hsolid =>
        refine ⟨_, .rule hbody, .some hn ?_ fun hr => hsolid (Rule.isSolid_body hr)⟩
        cases s with
        | true => exact .nil
        | false =>
          refine .cons (.node (fun hr => ?_) hus) .nil
          obtain ⟨cs, hcs, hcs'⟩ := hsolid (Rule.isSolid_body hr)
          rw [hcs.until_eq, hcs'.until_eq]
  | @rule_not s r m h ih =>
    by_cases hquoted : r = .quotedIdentifier
    · subst hquoted
      obtain ⟨r', hr', htrims⟩ := trims_quoted hm (.rule_not h)
      exact ⟨r', hr', htrims.mono fun _ => trivial⟩
    · obtain ⟨_, hbody, htrims⟩ := ih (Rule.shuns_innerBody hp hquoted) hm
      cases htrims
      exact ⟨_, .rule_not hbody, .none⟩

end

/-! ### White space at the ends -/

section
variable {cs ds : List Char}

theorem forall_takeWhile_append {p : Char → Bool} {Q : Char → Prop}
    (hcs : ∀ c ∈ cs.takeWhile p, Q c)
    (hds : ∀ c ∈ ds.takeWhile p, Q c) : ∀ c ∈ (cs ++ ds).takeWhile p, Q c := by
  rw [List.takeWhile_append]
  split
  · rename_i hall
    intro c hc
    rcases List.mem_append.1 hc with hc | hc
    · refine hcs c ?_
      rwa [(List.takeWhile_prefix p).eq_of_length hall]
    · exact hds c hc
  · exact hcs

theorem isWhiteSpace_eq_false {c : Char} (hc : c ∉ reserved) : isWhiteSpace c = false := by
  rw [Bool.eq_false_iff]
  exact fun h => hc (List.mem_cons_of_mem _ (List.mem_cons_of_mem _ (mem_whiteSpaces h)))

theorem pieces_leading : Pieces fun cs => ∀ c ∈ cs.takeWhile isWhiteSpace, isBlank c = true where
  nil := by simp
  append := forall_takeWhile_append
  char hc := by simp [isWhiteSpace_eq_false hc]
  blanks h c hc := h c ((List.takeWhile_sublist _).subset hc)
  quoted _ := by simp [isWhiteSpace]

theorem pieces_trailing :
    Pieces fun cs => ∀ c ∈ cs.reverse.takeWhile isWhiteSpace, isBlank c = true where
  nil := by simp
  append hcs hds := by
    rw [List.reverse_append]
    exact forall_takeWhile_append hds hcs
  char hc := by simp [isWhiteSpace_eq_false hc]
  blanks h c hc := h c (List.mem_reverse.1 ((List.takeWhile_sublist _).subset hc))
  quoted _ := by simp [isWhiteSpace]

theorem dropWhile_isBlank_eq (h : ∀ c ∈ cs.takeWhile isWhiteSpace, isBlank c = true) :
    cs.dropWhile isBlank = cs.dropWhile isWhiteSpace := by
  induction cs with
  | nil => rfl
  | cons c cs ih =>
    by_cases hc : isWhiteSpace c = true
    · rw [List.takeWhile_cons_of_pos hc, List.forall_mem_cons] at h
      rw [List.dropWhile_cons_of_pos hc, List.dropWhile_cons_of_pos h.1, ih h.2]
    · rw [List.dropWhile_cons_of_neg hc, List.dropWhile_cons_of_neg fun hblank =>
        hc (isWhiteSpace_of_isBlank hblank)]

theorem dropWhile_isWhiteSpace_eq (cs : List Char) : cs.dropWhile isWhiteSpace =
    trimBlanks cs ++ ((cs.dropWhile isWhiteSpace).reverse.takeWhile isWhiteSpace).reverse := by
  rw [trimBlanks, ← List.reverse_append, List.takeWhile_append_dropWhile, List.reverse_reverse]

/-- A text made of pieces loses blanks at its ends, and nothing else. -/
theorem trims_trimBlanks (hlead : ∀ c ∈ cs.takeWhile isWhiteSpace, isBlank c = true)
    (htrail : ∀ c ∈ cs.reverse.takeWhile isWhiteSpace, isBlank c = true) :
    (skipBlanks isBlank (.start cs)).Trims (skipBlanks isBlank (.start (trimBlanks cs))) := by
  have hblanks : ∀ c ∈ ((cs.dropWhile isWhiteSpace).reverse.takeWhile isWhiteSpace).reverse,
      isBlank c = true := by
    intro c hc
    refine htrail c ?_
    rw [← List.takeWhile_append_dropWhile (p := isWhiteSpace) (l := cs), List.reverse_append,
      List.takeWhile_append]
    split
    · exact List.mem_append_left _ ((List.takeWhile_sublist _).subset (List.mem_reverse.1 hc))
    · exact List.mem_reverse.1 hc
  have htrimmed : (trimBlanks cs).dropWhile isBlank = trimBlanks cs := by
    cases htrim : trimBlanks cs with
    | nil => rfl
    | cons c ds =>
      refine List.dropWhile_cons_of_neg fun hblank => ?_
      have hhead := List.head?_dropWhile_not isWhiteSpace cs
      rw [dropWhile_isWhiteSpace_eq, htrim] at hhead
      simp [isWhiteSpace_of_isBlank hblank] at hhead
  refine ⟨_, hblanks, ?_⟩
  show cs.dropWhile isBlank = (trimBlanks cs).dropWhile isBlank ++ _
  rw [dropWhile_isBlank_eq hlead, htrimmed, ← dropWhile_isWhiteSpace_eq]

end

/-! ### Comments -/

/-- Whether a text ends between quotes, given whether it begins so; there is no answer if a `#`
stands outside. -/
def endsQuoted? : (quoted : Bool) → List Char → Option Bool
  | quoted, [] => some quoted
  | quoted, c :: cs =>
    if c = '\'' then endsQuoted? (!quoted) cs
    else if c = '#' && !quoted then none
    else endsQuoted? quoted cs

theorem endsQuoted?_append (quoted : Bool) (cs ds : List Char) :
    endsQuoted? quoted (cs ++ ds) = (endsQuoted? quoted cs).bind (endsQuoted? · ds) := by
  induction cs generalizing quoted with
  | nil => rfl
  | cons c cs ih =>
    simp only [List.cons_append, endsQuoted?, ih]
    split
    · rfl
    · split <;> rfl

theorem endsQuoted?_of_forall {quoted : Bool} {cs : List Char} (hquote : '\'' ∉ cs)
    (h : quoted = true ∨ '#' ∉ cs) : endsQuoted? quoted cs = some quoted := by
  induction cs with
  | nil => rfl
  | cons c cs ih =>
    rw [List.mem_cons, not_or] at hquote
    have hcomment : (c = '#' && !quoted) = false := by
      rcases h with rfl | h
      · simp
      · have hc : c ≠ '#' := fun hc => h (hc ▸ List.mem_cons_self ..)
        simp [hc]
    rw [endsQuoted?, if_neg (Ne.symm hquote.1), hcomment]
    exact ih hquote.2 (h.imp_right fun h hmem => h (List.mem_cons_of_mem c hmem))

theorem quote_not_mem_of_isWhiteSpace {cs : List Char} (h : ∀ c ∈ cs, isWhiteSpace c = true) :
    '\'' ∉ cs ∧ '#' ∉ cs :=
  ⟨fun hmem => (nomatch h _ hmem), fun hmem => (nomatch h _ hmem)⟩

theorem pieces_endsQuoted? : Pieces fun cs => endsQuoted? false cs = some false where
  nil := rfl
  append hcs hds := by rw [endsQuoted?_append, hcs, Option.bind_some, hds]
  char hc := by
    refine endsQuoted?_of_forall (fun hmem => hc ?_) (.inr fun hmem => hc ?_)
    · rw [← List.mem_singleton.1 hmem]
      decide
    · rw [← List.mem_singleton.1 hmem]
      decide
  blanks h := by
    obtain ⟨hquote, hcomment⟩ :=
      quote_not_mem_of_isWhiteSpace fun c hc => isWhiteSpace_of_isBlank (h c hc)
    exact endsQuoted?_of_forall hquote (.inr hcomment)
  quoted hquote := by
    rw [endsQuoted?, if_pos rfl, Bool.not_false, endsQuoted?_append,
      endsQuoted?_of_forall hquote (.inl rfl)]
    rfl

theorem endsQuoted?_trimBlanks (cs : List Char) : endsQuoted? false (trimBlanks cs) = some false →
    endsQuoted? false cs = some false := by
  intro h
  have hspace {ds : List Char} (hds : ∀ c ∈ ds, isWhiteSpace c = true) : endsQuoted? false ds =
      some false :=
    endsQuoted?_of_forall (quote_not_mem_of_isWhiteSpace hds).1
      (.inr (quote_not_mem_of_isWhiteSpace hds).2)
  rw [← List.takeWhile_append_dropWhile (p := isWhiteSpace) (l := cs), endsQuoted?_append,
    hspace fun c hc => List.mem_takeWhile_imp hc, Option.bind_some, dropWhile_isWhiteSpace_eq,
    endsQuoted?_append, h, Option.bind_some]
  exact hspace fun c hc => List.mem_takeWhile_imp (List.mem_reverse.1 hc)

end ModalBounds
