import ModalBounds.Proofs.Syntax.Totality

/-!
# Names, words and numerals

The text of a name or of a numeral is read as one token, which ends where the text does as long as
no character follows that could continue it (`yields_identifier`, `yields_name`, `yields_number`).
-/

namespace ModalBounds

theorem Mark.Spans.rest_eq {m n : Mark} {cs rest : List Char} (h : m.Spans cs n)
    (hm : m.rest = cs ++ rest) : n.rest = rest :=
  List.append_cancel_left (h.rest.symm.trans hm)

theorem Mark.forall_head {m : Mark} {c : Char} {rest : List Char} {P : Char → Prop}
    (hm : m.rest = c :: rest) (h : P c) : ∀ d ∈ m.rest.head?, P d := by
  rw [hm]
  rintro d ⟨⟩
  exact h

namespace Grammar

variable {ρ : Type} {g : Grammar ρ} {s : Bool} {m n : Mark} {a b : Pattern ρ} {ts : List (Token ρ)}

/-! ### What matches come from -/

theorem yields_seq_some : g.Yields s (.seq a b) m (some (n, ts)) ↔
    ∃ k us vs, g.Yields s a m (some (k, us)) ∧ g.Yields s b k (some (n, vs)) ∧ ts = us ++ vs := by
  constructor
  · intro h
    generalize hr : some (n, ts) = r at h
    cases h with
    | @seq _ _ _ _ k us r ha hb =>
      cases r with
      | none => cases hr
      | some r => cases hr; exact ⟨k, us, _, ha, hb, rfl⟩
    | seq_not => cases hr
  · rintro ⟨k, us, vs, ha, hb, rfl⟩
    exact .seq ha hb

theorem yields_alt_some (h : g.Yields s (.alt a b) m (some (n, ts))) :
    g.Yields s a m (some (n, ts)) ∨ g.Yields s b m (some (n, ts)) := by
  cases h with
  | alt_first h => exact .inl h
  | alt_second _ h => exact .inr h

theorem yields_rule_some {r : ρ} (h : g.Yields s (.rule r) m (some (n, ts))) :
    ∃ us, g.Yields (s || g.isAtomic r) (g.body r) m (some (n, us)) ∧ ts = if s then []
      else [.node r m n us] := by
  generalize hr : some (n, ts) = q at h
  cases h with
  | rule h => cases hr; exact ⟨_, h, rfl⟩
  | rule_not => cases hr

theorem yields_token_some {r : ρ} (h : g.Yields false (.rule r) m (some (n, ts))) :
    ∃ us, g.Yields (g.isAtomic r) (g.body r) m (some (n, us)) ∧ ts = [.node r m n us] :=
  yields_rule_some h

theorem yields_char_some {p : Char → Bool} (h : g.Yields s (.char p) m (some (n, ts))) :
    ∃ c, p c = true ∧ m.Spans [c] n ∧ ts = [] := by
  cases h with
  | char hc hp => exact ⟨_, hp, Mark.spans_of_next? hc, rfl⟩

theorem yields_exactly_some {c : Char} (h : g.Yields s (.exactly c) m (some (n, ts))) :
    m.Spans [c] n ∧ ts = [] := by
  obtain ⟨d, hd, hn, hts⟩ := yields_char_some h
  obtain rfl : d = c := beq_iff_eq.1 hd
  exact ⟨hn, hts⟩

theorem yields_spaced_some {l : List (Pattern ρ)}
    (h : g.Yields s (.spaced a (b :: l)) m (some (n, ts))) :
    ∃ k blanks j us vs,
      g.Yields s a m (some (k, us)) ∧ k.Spans blanks j ∧ (∀ c ∈ blanks, g.isBlank c = true) ∧
      g.Yields s (.spaced b l) j (some (n, vs)) ∧ ts = us ++ vs := by
  obtain ⟨k, us, vs, ha, hrest, rfl⟩ := yields_seq_some.1 h
  obtain ⟨j, us', vs, hblank, hb, rfl⟩ := yields_seq_some.1 hrest
  cases hblank
  exact ⟨k, _, _, us, vs, ha, k.spans_skipBlanks g.isBlank, fun c hc =>
    List.mem_takeWhile_imp hc, hb, rfl⟩

/-- Matches one after the other, with blanks before each. -/
inductive Repeats (g : Grammar ρ) (s : Bool) (a : Pattern ρ) : Mark → Mark → List (Token ρ) → Prop
  | nil {m : Mark} : Repeats g s a m m []
  | cons {m k l n : Mark} {blanks : List Char} {us vs : List (Token ρ)} : m.Spans blanks k →
      (∀ c ∈ blanks, g.isBlank c = true) →
      g.Yields s a k (some (l, us)) → Repeats g s a l n vs → Repeats g s a m n (us ++ vs)

theorem repeats_of_star (h : g.Yields s (.star (.seq .blank a)) m (some (n, ts))) :
    g.Repeats s a m n ts := by
  generalize hr : some (n, ts) = r at h
  generalize hp : Pattern.star (.seq .blank a) = p at h
  induction h generalizing n ts with
  | @star_more _ _ m _ _ r h _ _ ih =>
    cases hp
    cases r with
    | none => cases hr
    | some r =>
      cases hr
      obtain ⟨k, us, vs, hblank, ha, rfl⟩ := yields_seq_some.1 h
      cases hblank
      exact .cons (m.spans_skipBlanks g.isBlank)
        (fun c hc => List.mem_takeWhile_imp hc) ha (ih rfl rfl)
  | star_done => cases hr; exact .nil
  | _ => cases hp

theorem repeats_of_spacedStar (h : g.Yields s (.spacedStar a) m (some (n, ts))) :
    g.Repeats s a m n ts := by
  generalize hr : some (n, ts) = r at h
  generalize hp : Pattern.spacedStar a = p at h
  cases h with
  | opt_some h =>
    cases hp
    cases hr
    obtain ⟨k, us, vs, ha, hrest, rfl⟩ := yields_seq_some.1 h
    exact .cons (.refl m) (List.forall_mem_nil _) ha (repeats_of_star hrest)
  | opt_none => cases hr; exact .nil
  | _ => cases hp

/-- Of what is repeated each match has characters of one kind. -/
theorem yields_star_some {P : Char → Prop} (h : g.Yields s (.star a) m (some (n, ts)))
    (ha : ∀ {m n ts}, g.Yields s a m (some (n, ts)) → ∃ cs, m.Spans cs n ∧ ∀ c ∈ cs, P c) :
    ∃ cs, m.Spans cs n ∧ ∀ c ∈ cs, P c := by
  generalize hr : some (n, ts) = r at h
  generalize hp : Pattern.star a = p at h
  induction h generalizing n ts with
  | @star_more _ _ _ _ _ r h _ _ ih =>
    cases hp
    cases r with
    | none => cases hr
    | some r =>
      cases hr
      obtain ⟨cs, hcs, hP⟩ := ha h
      obtain ⟨ds, hds, hP'⟩ := ih ha rfl rfl
      refine ⟨cs ++ ds, hcs.trans hds, fun c hc => ?_⟩
      exact (List.mem_append.1 hc).elim (hP c) (hP' c)
  | star_done => cases hr; exact ⟨[], .refl _, by simp⟩
  | _ => cases hp

/-! ### Characters and words -/

theorem yields_char {p : Char → Bool} {c : Char} {rest : List Char} (hm : m.rest = c :: rest)
    (hp : p c = true) : ∃ n, m.Spans [c] n ∧ g.Yields s (.char p) m (some (n, [])) := by
  obtain ⟨o, i, _⟩ := m
  cases hm
  exact ⟨_, Mark.spans_of_next? rfl, .char rfl hp⟩

theorem yields_exactly {c : Char} {rest : List Char} (hm : m.rest = c :: rest) :
    ∃ n, m.Spans [c] n ∧ g.Yields s (.exactly c) m (some (n, [])) :=
  yields_char hm (beq_self_eq_true c)

theorem yields_char_none {p : Char → Bool} (h : ∀ c ∈ m.rest.head?, p c = false) :
    g.Yields s (.char p) m none := by
  refine .char_not fun c n hc => h c ?_
  rw [(Mark.spans_of_next? hc).rest]
  rfl

theorem yields_star_char {p : Char → Bool} {cs rest : List Char} (hm : m.rest = cs ++ rest)
    (hcs : ∀ c ∈ cs, p c = true) (hrest : ∀ c ∈ rest.head?, p c = false) :
    ∃ n, m.Spans cs n ∧ g.Yields s (.star (.char p)) m (some (n, [])) := by
  induction cs generalizing m with
  | nil =>
    refine ⟨m, .refl m, .star_done (yields_char_none ?_)⟩
    rwa [hm]
  | cons c cs ih =>
    obtain ⟨k, hk, hc⟩ := yields_char (g := g) (s := s) hm (hcs c (by simp))
    obtain ⟨n, hn, hstar⟩ := ih (hk.rest_eq hm) fun d hd => hcs d (by simp [hd])
    exact ⟨n, hk.trans hn, .star_more hc hstar⟩

theorem yields_tight_none {l : List (Pattern ρ)} (h : g.Yields s a m none) :
    g.Yields s (.tight a l) m none := by
  cases l with
  | nil => exact h
  | cons b l => exact .seq_not h

theorem yields_word {c : Char} {cs rest : List Char} (hm : m.rest = (c :: cs) ++ rest) :
    ∃ n, m.Spans (c :: cs) n ∧ g.Yields s (.word c cs) m (some (n, [])) := by
  induction cs generalizing c m with
  | nil => exact yields_char hm (beq_self_eq_true c)
  | cons d cs ih =>
    obtain ⟨k, hk, hc⟩ := yields_exactly (g := g) (s := s) hm
    obtain ⟨n, hn, hword⟩ := ih (hk.rest_eq hm)
    exact ⟨n, hk.trans hn, .seq hc hword⟩

theorem yields_exactly_none {c : Char} (h : ∀ d ∈ m.rest.head?, d ≠ c) :
    g.Yields s (.exactly c) m none :=
  yields_char_none fun d hd => beq_eq_false_iff_ne.2 (h d hd)

theorem yields_word_none {c : Char} {cs : List Char} (h : ∀ d ∈ m.rest.head?, d ≠ c) :
    g.Yields s (.word c cs) m none :=
  yields_tight_none (yields_exactly_none h)

end Grammar

/-! ### Names -/

section
variable {c : Char} {name : String}

theorem head_of_isIdentifier (h : isIdentifier name = true) :
    ∃ c cs, name.toList = c :: cs ∧ isIdentifierStart c = true := by
  unfold isIdentifier at h
  split at h
  · cases h
  · rename_i c cs hcs
    rw [Bool.and_eq_true] at h
    exact ⟨c, cs, hcs, h.1⟩

theorem quote_not_mem_of_isIdentifier (h : isIdentifier name = true) : '\'' ∉ name.toList := by
  unfold isIdentifier at h
  split at h
  · cases h
  · rename_i c cs hcs
    rw [Bool.and_eq_true, List.all_eq_true] at h
    rw [hcs, List.mem_cons, not_or]
    constructor
    · rintro rfl
      cases h.1
    · intro hmem
      cases h.2 _ hmem

theorem isDigit_of_isIdentifierStart (h : isIdentifierStart c = true) : c.isDigit = false := by
  rw [Bool.eq_false_iff]
  intro hdigit
  have hle := (Char.isDigit_iff_toNat.1 hdigit).2
  simp only [isIdentifierStart, Char.isAlpha, Char.isUpper, Char.isLower, Bool.or_eq_true,
    Bool.and_eq_true, decide_eq_true_eq, beq_iff_eq, ge_iff_le, UInt32.le_iff_toNat_le] at h
  simp only [Char.toNat] at hle
  simp at hle h
  rcases h with (h | h) | rfl
  · omega
  · omega
  · simp at hle

theorem isBlank_of_isIdentifierStart (h : isIdentifierStart c = true) : isBlank c = false := by
  rw [Bool.eq_false_iff]
  intro hblank
  simp only [isBlank, Bool.or_eq_true, beq_iff_eq] at hblank
  rcases hblank with ((rfl | rfl) | rfl) | rfl <;> cases h

end

section
variable {m : Mark} {name : String} {rest : List Char}

theorem yields_identifier (hname : isIdentifier name = true) (hm : m.rest = name.toList ++ rest)
    (hrest : ∀ c ∈ rest.head?, isIdentifierChar c = false) :
    ∃ n, m.Spans name.toList n ∧
      modelGrammar.Yields false (.rule .identifier) m (some (n, [.node .identifier m n []])) := by
  rw [isIdentifier] at hname
  split at hname
  · cases hname
  · rename_i c cs hcs
    rw [Bool.and_eq_true, List.all_eq_true] at hname
    rw [hcs] at hm ⊢
    obtain ⟨k, hk, hc⟩ := Grammar.yields_char (g := modelGrammar) (s := true) hm hname.1
    obtain ⟨n, hn, hstar⟩ :=
      Grammar.yields_star_char (g := modelGrammar) (s := true) (hk.rest_eq hm) hname.2 hrest
    exact ⟨n, hk.trans hn, .rule (.seq hc hstar)⟩

theorem yields_unquoted {cs : List Char} (hcs : ∀ c ∈ cs, c ≠ '\'')
    (hm : m.rest = cs ++ '\'' :: rest) :
    ∃ n, m.Spans cs n ∧
      modelGrammar.Yields true (.star (.tight (.notHere (.exactly '\'')) [.char fun _ => true])) m
        (some (n, [])) := by
  induction cs generalizing m with
  | nil =>
    obtain ⟨n, -, hquote⟩ := Grammar.yields_exactly (g := modelGrammar) (s := true) hm
    exact ⟨m, .refl m, .star_done (.seq_not (.notHere_not hquote))⟩
  | cons c cs ih =>
    obtain ⟨k, hk, hc⟩ :=
      Grammar.yields_char (g := modelGrammar) (s := true) (p := fun _ => true) hm rfl
    obtain ⟨n, hn, hstar⟩ := ih (fun d hd => hcs d (by simp [hd])) (hk.rest_eq hm)
    have hnot : modelGrammar.Yields true (.exactly '\'') m none :=
      Grammar.yields_exactly_none (Mark.forall_head hm (hcs _ (by simp)))
    exact ⟨n, hk.trans hn, .star_more (.seq (.notHere hnot) hc) hstar⟩

theorem yields_quoted (s : Bool) {cs : List Char} (hne : cs ≠ []) (hcs : '\'' ∉ cs)
    (hm : m.rest = '\'' :: (cs ++ '\'' :: rest)) :
    ∃ k l n, k.Spans cs l ∧ m.Spans ('\'' :: (cs ++ ['\''])) n ∧
      modelGrammar.Yields s (.rule .quotedIdentifier) m
        (some (n, if s then [] else [.node .quotedIdentifier m n [.node .quotedName k l []]])) := by
  have hcs : ∀ d ∈ cs, d ≠ '\'' := fun d hd hq => hcs (hq ▸ hd)
  obtain ⟨c, cs, rfl⟩ := List.exists_cons_of_ne_nil hne
  obtain ⟨k, hk, hopen⟩ := Grammar.yields_exactly (g := modelGrammar) (s := s || false) hm
  have hkrest := hk.rest_eq hm
  obtain ⟨j, hj, hc⟩ :=
    Grammar.yields_char (g := modelGrammar) (s := true) (p := fun _ => true) hkrest rfl
  have hnot : modelGrammar.Yields true (.exactly '\'') k none :=
    Grammar.yields_exactly_none (Mark.forall_head hkrest (hcs _ (by simp)))
  obtain ⟨l, hl, hstar⟩ := yields_unquoted (fun d hd => hcs d (by simp [hd])) (hj.rest_eq hkrest)
  have hbody : modelGrammar.Yields (s || false || true) Rule.quotedName.body k (some (l, [])) := by
    rw [Bool.or_true]
    exact .seq (.seq (.notHere hnot) hc) hstar
  have hlrest : l.rest = '\'' :: rest := (hj.trans hl).rest_eq hkrest
  obtain ⟨n, hn, hclose⟩ := Grammar.yields_exactly (g := modelGrammar) (s := s || false) hlrest
  refine ⟨k, l, n, hj.trans hl, (hk.trans (hj.trans hl)).trans hn, ?_⟩
  have hname :=
    Grammar.Yields.rule (g := modelGrammar) (s := s || false) (r := Rule.quotedName) hbody
  have hquoted :=
    Grammar.Yields.rule (g := modelGrammar) (s := s) (r := Rule.quotedIdentifier)
      (.seq hopen (.seq hname hclose))
  cases s <;> exact hquoted

theorem yields_identifier_none (h : ∀ c ∈ m.rest.head?, isIdentifierStart c = false) :
    modelGrammar.Yields false (.rule .identifier) m none :=
  .rule_not (Grammar.yields_tight_none (Grammar.yields_char_none h))

/-- A name as it is written, in quotes unless it is an identifier, is read as a name. -/
theorem yields_name (hne : name.toList ≠ []) (hquote : '\'' ∉ name.toList)
    (hm : m.rest = (nameText name).toList ++ rest)
    (hrest : ∀ c ∈ rest.head?, isIdentifierChar c = false) :
    ∃ n ts, m.Spans (nameText name).toList n ∧
      modelGrammar.Yields false (.firstOf (.rule .identifier) [.rule .quotedIdentifier]) m
        (some (n, ts)) ∧
      ∀ r k l, nameOf? (.node r k l ts) = some name := by
  rw [nameText] at hm ⊢
  split at hm
  · rename_i hname
    rw [if_pos hname]
    obtain ⟨n, hn, hyields⟩ := yields_identifier hname hm hrest
    refine ⟨n, _, hn, .alt_first hyields, fun r k l => ?_⟩
    show some (String.ofList (m.until n)) = some name
    rw [hn.until_eq, String.ofList_toList]
  · rename_i hname
    have htext : ("'" ++ name ++ "'").toList = '\'' :: (name.toList ++ ['\'']) := by
      simp [String.toList_append]
    rw [if_neg hname]
    rw [htext] at hm ⊢
    obtain ⟨k, l, n, hname, hn, hyields⟩ := yields_quoted false hne hquote (by simpa using hm)
    refine ⟨n, _, hn, .alt_second (yields_identifier_none (Mark.forall_head hm rfl)) hyields,
      fun r k' l' => ?_⟩
    show some (String.ofList (k.until l)) = some name
    rw [hname.until_eq, String.ofList_toList]

end

/-! ### Numerals -/

def IsDigits (ds : List Char) : Prop := ds ≠ [] ∧ ∀ c ∈ ds, c.isDigit = true

/-- A number in digits, maybe with digits after a point. -/
def IsPlainNumeral (cs : List Char) : Prop :=
  IsDigits cs ∨ ∃ ds fs, IsDigits ds ∧ IsDigits fs ∧ cs = ds ++ '.' :: fs

/-- A numeral, maybe with an exponent of ten. -/
def IsNumeral (cs : List Char) : Prop :=
  IsPlainNumeral cs ∨ ∃ ps c sign ds, IsPlainNumeral ps ∧ (c = 'e' ∨ c = 'E') ∧
    (sign = [] ∨ sign = ['+'] ∨ sign = ['-']) ∧ IsDigits ds ∧ cs = ps ++ c :: (sign ++ ds)

theorem isDigits_toString (n : ℕ) : IsDigits (toString n).toList := by
  have h : (toString n).toList = Nat.toDigits 10 n := by
    show (Nat.repr n).toList = _
    simp [Nat.repr]
  rw [h]
  refine ⟨?_, fun c hc => Nat.isDigit_of_mem_toDigits (by decide) (by decide) hc⟩
  rw [Nat.toDigits_eq_if (by decide)]
  split <;> simp

theorem isPlainNumeral_writePositional {ds : List Char} (hds : IsDigits ds) (point : ℤ) :
    IsPlainNumeral (NumberFormat.plain.writePositional ds point) := by
  unfold NumberFormat.writePositional
  simp only
  split
  · refine .inl ⟨by simp [hds.1], fun c hc => ?_⟩
    simp only [NumberFormat.plain, Bool.false_eq_true, if_false, List.append_nil,
      List.mem_append] at hc
    rcases hc with hc | hc
    · exact hds.2 c hc
    · rw [(List.mem_replicate.1 hc).2]
      rfl
  · rename_i hlong
    split
    · rename_i hpos
      have hlen : point.toNat < ds.length := by omega
      refine .inr ⟨_, _, ⟨?_, fun c hc => hds.2 c (List.mem_of_mem_take hc)⟩,
        ⟨?_, fun c hc => hds.2 c (List.mem_of_mem_drop hc)⟩, rfl⟩
      · simp only [ne_eq, List.take_eq_nil_iff, not_or]
        exact ⟨by omega, hds.1⟩
      · simp only [ne_eq, List.drop_eq_nil_iff]
        omega
    · refine .inr ⟨['0'], _, ⟨by simp, by simp⟩, ⟨by simp [hds.1], fun c hc => ?_⟩, rfl⟩
      rcases List.mem_append.1 hc with hc | hc
      · rw [(List.mem_replicate.1 hc).2]
        rfl
      · exact hds.2 c hc

theorem toList_write_plain (d : Decimal) : ∃ cs, IsPlainNumeral cs ∧
    (NumberFormat.plain.write d).toList = if d.negative then '-' :: cs else cs := by
  refine ⟨_, isPlainNumeral_writePositional (isDigits_toString d.digits)
    ((toString d.digits).toList.length + d.exponent), ?_⟩
  show (String.ofList _).toList = _
  rw [String.toList_ofList]
  rfl

theorem IsDigits.head {ds : List Char} (h : IsDigits ds) :
    ∃ c cs, ds = c :: cs ∧ c.isDigit = true := by
  obtain ⟨c, cs, rfl⟩ := List.exists_cons_of_ne_nil h.1
  exact ⟨c, cs, rfl, h.2 c (by simp)⟩

theorem IsPlainNumeral.head {cs : List Char} (h : IsPlainNumeral cs) :
    ∃ c ds, cs = c :: ds ∧ c.isDigit = true := by
  rcases h with h | ⟨ds, fs, h, -, rfl⟩
  · exact h.head
  · obtain ⟨c, ds, rfl, hc⟩ := h.head
    exact ⟨c, _, rfl, hc⟩

theorem IsNumeral.head {cs : List Char} (h : IsNumeral cs) :
    ∃ c ds, cs = c :: ds ∧ c.isDigit = true := by
  rcases h with h | ⟨ps, d, sign, ds, h, -, -, -, rfl⟩
  · exact h.head
  · obtain ⟨c, cs, rfl, hc⟩ := h.head
    exact ⟨c, _, rfl, hc⟩

section
variable {s : Bool} {m : Mark} {cs rest : List Char}

theorem yields_digits (hcs : IsDigits cs) (hm : m.rest = cs ++ rest)
    (hrest : ∀ c ∈ rest.head?, c.isDigit = false) :
    ∃ n, m.Spans cs n ∧
      modelGrammar.Yields s (.tightPlus (.char Char.isDigit)) m (some (n, [])) := by
  obtain ⟨c, cs, rfl, hc⟩ := hcs.head
  obtain ⟨k, hk, hfirst⟩ := Grammar.yields_char (g := modelGrammar) (s := s) hm hc
  obtain ⟨n, hn, hstar⟩ := Grammar.yields_star_char (g := modelGrammar) (s := s) (hk.rest_eq hm)
    (fun d hd => hcs.2 d (by simp [hd])) hrest
  exact ⟨n, hk.trans hn, .seq hfirst hstar⟩

theorem yields_plain (hcs : IsPlainNumeral cs) (hm : m.rest = cs ++ rest)
    (hrest : ∀ c ∈ rest.head?, c.isDigit = false ∧ c ≠ '.') :
    ∃ k n, modelGrammar.Yields s (.tightPlus (.char Char.isDigit)) m (some (k, [])) ∧
      modelGrammar.Yields s (.opt (.tight (.exactly '.') [.tightPlus (.char Char.isDigit)])) k
        (some (n, [])) ∧
      m.Spans cs n := by
  rcases hcs with hcs | ⟨ds, fs, hds, hfs, rfl⟩
  · obtain ⟨n, hn, hdigits⟩ := yields_digits (s := s) hcs hm fun c hc => (hrest c hc).1
    refine ⟨n, n, hdigits,
      .opt_none (Grammar.yields_tight_none (Grammar.yields_exactly_none fun c hc => ?_)), hn⟩
    exact (hrest c (hn.rest_eq hm ▸ hc)).2
  · have hm' : m.rest = ds ++ ('.' :: fs ++ rest) := by simpa using hm
    obtain ⟨k, hk, hwhole⟩ := yields_digits (s := s) hds hm' (by simp)
    obtain ⟨l, hl, hdot⟩ := Grammar.yields_exactly (g := modelGrammar) (s := s) (hk.rest_eq hm')
    obtain ⟨n, hn, hplaces⟩ := yields_digits (s := s) hfs (hl.rest_eq (hk.rest_eq hm')) fun c hc =>
      (hrest c hc).1
    exact ⟨k, n, hwhole, .opt_some (.seq hdot hplaces), hk.trans (hl.trans hn)⟩

theorem yields_exponent {c : Char} {sign ds : List Char} (hc : c = 'e' ∨ c = 'E')
    (hsign : sign = [] ∨ sign = ['+'] ∨ sign = ['-']) (hds : IsDigits ds)
    (hm : m.rest = c :: (sign ++ ds) ++ rest)
    (hrest : ∀ c ∈ rest.head?, c.isDigit = false) :
    ∃ n, m.Spans (c :: (sign ++ ds)) n ∧
      modelGrammar.Yields s (.tight (.char fun c => c == 'e' || c == 'E')
      [.opt (.firstOf (.exactly '+') [.exactly '-']), .tightPlus (.char Char.isDigit)]) m (some
        (n, [])) := by
  obtain ⟨k, hk, hchar⟩ :=
    Grammar.yields_char (g := modelGrammar) (s := s) (p := fun c => c == 'e' || c == 'E') hm
    (by rcases hc with rfl | rfl <;> rfl)
  have hkrest : k.rest = sign ++ (ds ++ rest) := (hk.rest_eq hm).trans (List.append_assoc ..)
  obtain ⟨l, hl, hyields⟩ : ∃ l, k.Spans sign l ∧
      modelGrammar.Yields s (.opt (.firstOf (.exactly '+') [.exactly '-'])) k (some (l, [])) := by
    obtain ⟨d, es, hd, hdigit⟩ := hds.head
    rcases hsign with rfl | rfl | rfl
    · rw [hd] at hkrest
      refine ⟨k, .refl k,
        .opt_none (.alt_second (Grammar.yields_exactly_none (Mark.forall_head hkrest ?_))
        (Grammar.yields_exactly_none (Mark.forall_head hkrest ?_)))⟩ <;> rintro rfl <;> cases hdigit
    · obtain ⟨l, hl, hplus⟩ := Grammar.yields_exactly (g := modelGrammar) (s := s) hkrest
      exact ⟨l, hl, .opt_some (.alt_first hplus)⟩
    · obtain ⟨l, hl, hminus⟩ := Grammar.yields_exactly (g := modelGrammar) (s := s) hkrest
      exact ⟨l, hl, .opt_some (.alt_second
        (Grammar.yields_exactly_none (Mark.forall_head hkrest (by decide))) hminus)⟩
  obtain ⟨n, hn, hdigits⟩ := yields_digits (s := s) hds (hl.rest_eq hkrest) hrest
  exact ⟨n, hk.trans (hl.trans hn), .seq hchar (.seq hyields hdigits)⟩

/-- Whether a character could continue a numeral. -/
def continuesNumber (c : Char) : Bool := c.isDigit || c == '.' || c == 'e' || c == 'E'

theorem yields_number (hcs : IsNumeral cs) (hm : m.rest = cs ++ rest)
    (hrest : ∀ c ∈ rest.head?, continuesNumber c = false) :
    ∃ n, m.Spans cs n ∧
      modelGrammar.Yields s (.rule .number) m
        (some (n, if s then [] else [.node .number m n []])) := by
  have hstop : ∀ c ∈ rest.head?, c.isDigit = false ∧ c ≠ '.' ∧ c ≠ 'e' ∧ c ≠ 'E' := by
    intro c hc
    simpa [continuesNumber, and_assoc] using hrest c hc
  rcases hcs with hcs | ⟨ps, c, sign, ds, hps, hc, hsign, hds, rfl⟩
  · obtain ⟨k, n, hwhole, hplaces, hn⟩ := yields_plain (s := s || true) hcs hm fun c hc =>
      ⟨(hstop c hc).1, (hstop c hc).2.1⟩
    refine ⟨n, hn, .rule (.seq hwhole (.seq hplaces (.opt_none (Grammar.yields_tight_none
      (Grammar.yields_char_none fun c hc => ?_)))))⟩
    simp [hstop c (hn.rest_eq hm ▸ hc)]
  · rw [List.append_assoc] at hm
    obtain ⟨k, l, hwhole, hplaces, hl⟩ :=
      yields_plain (s := s || true) hps hm (by rcases hc with rfl | rfl <;> simp)
    obtain ⟨n, hn, hexponent⟩ :=
      yields_exponent (s := s || true) hc hsign hds (hl.rest_eq hm) fun c hc => (hstop c hc).1
    exact ⟨n, hl.trans hn, .rule (.seq hwhole (.seq hplaces (.opt_some hexponent)))⟩

theorem yields_number_none (h : ∀ c ∈ m.rest.head?, c.isDigit = false) :
    modelGrammar.Yields s (.rule .number) m none :=
  .rule_not (Grammar.yields_tight_none (.seq_not (Grammar.yields_char_none h)))

end

end ModalBounds
