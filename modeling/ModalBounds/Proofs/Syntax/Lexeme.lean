import ModalBounds.Proofs.Syntax.Place
import ModalBounds.Proofs.Syntax.Reading

/-!
# The lexemes of a text

`lexemes` cuts a text into numbers, identifiers, names in quotes and single characters, each as long
as it goes, and leaves out the blanks between them. The other way around, `Laid ls text` says that a
text has these lexemes in order, with any blanks around them. Lexemes of which no two words are next
to each other (`Separated`) are found again in each text they are laid out in (`Laid.lexemes_eq`),
and without its blanks such a text is the lexemes next to each other (`Laid.withoutBlanks_eq`).
-/

namespace ModalBounds

/-! ### Scanning -/

def leadingDigits (cs : List Char) : List Char := cs.takeWhile Char.isDigit

def leadingPlaces : List Char → List Char
  | '.' :: cs => if leadingDigits cs = [] then [] else '.' :: leadingDigits cs
  | _ => []

def leadingExponent : List Char → List Char
  | [] => []
  | c :: cs =>
    let sign := (cs.takeWhile fun c => c == '+' || c == '-').take 1
    let ds := leadingDigits (cs.drop sign.length)
    if (c = 'e' ∨ c = 'E') ∧ ds ≠ [] then c :: (sign ++ ds) else []

def leadingNumber (cs : List Char) : List Char :=
  let ds := leadingDigits cs
  let ps := leadingPlaces (cs.drop ds.length)
  ds ++ (ps ++ leadingExponent (cs.drop (ds.length + ps.length)))

/-- The lexeme that a text begins with. -/
def lexeme : List Char → List Char
  | [] => []
  | c :: cs =>
    if isIdentifierStart c then c :: cs.takeWhile isIdentifierChar
    else if c.isDigit then leadingNumber (c :: cs)
    else if c = '\'' then c :: (cs.takeWhile (· != '\'') ++ (cs.dropWhile (· != '\'')).take 1)
    else [c]

theorem lexeme_ne_nil (c : Char) (cs : List Char) : lexeme (c :: cs) ≠ [] := by
  rw [lexeme]
  split
  · simp
  split
  · rename_i hc
    simp [leadingNumber, leadingDigits, hc]
  split <;> simp

def lexemes (text : List Char) : List (List Char) :=
  match _h : text.dropWhile isBlank with
  | [] => []
  | c :: cs => lexeme (c :: cs) :: lexemes ((c :: cs).drop (lexeme (c :: cs)).length)
termination_by text.length
decreasing_by
  have hle := (List.dropWhile_suffix isBlank (l := text)).length_le
  have hpos := List.length_pos_iff.2 (lexeme_ne_nil c cs)
  rw [_h] at hle
  rw [List.length_drop]
  simp only [List.length_cons] at hle ⊢
  omega

/-- A text without the blanks outside of quotes. -/
def withoutBlanks : (quoted : Bool) → List Char → List Char
  | _, [] => []
  | quoted, c :: cs =>
    if c = '\'' then c :: withoutBlanks (!quoted) cs
    else if !quoted && isBlank c then withoutBlanks quoted cs
    else c :: withoutBlanks quoted cs

/-! ### Lexemes -/

def marks : List Char := '(' :: closers

theorem eq_false_of_mem_marks {c : Char} (hc : c ∈ marks) :
    isBlank c = false ∧ isIdentifierChar c = false ∧
    isIdentifierStart c = false ∧ continuesNumber c = false ∧ c.isDigit = false ∧ c ≠ '\'' := by
  rcases List.mem_cons.1 hc with rfl | hc
  · exact ⟨rfl, rfl, rfl, rfl, rfl, by decide⟩
  · rcases cases_of_mem_closers hc with rfl | rfl | rfl | rfl | rfl | rfl | rfl <;>
      exact ⟨rfl, rfl, rfl, rfl, rfl, by decide⟩

/-- A single character that ends what comes before it. -/
def IsMark (l : List Char) : Prop := ∃ c ∈ marks, l = [c]

inductive IsLexeme : List Char → Prop
  | number {text : List Char} : IsNumeral text → IsLexeme text
  | identifier {name : String} : isIdentifier name = true → IsLexeme name.toList
  | quoted {cs : List Char} : '\'' ∉ cs → IsLexeme ('\'' :: (cs ++ ['\'']))
  | mark {l : List Char} : IsMark l → IsLexeme l

/-- Lexemes of which no two numbers or names are next to each other. -/
structure Separated (ls : List (List Char)) : Prop where
  lexeme : ∀ l ∈ ls, IsLexeme l
  chain : ls.IsChain fun l l' => IsMark l ∨ IsMark l'

/-- Lexemes in order, with any blanks before, between and after them. -/
inductive Laid : List (List Char) → List Char → Prop
  | nil {blanks : List Char} : AllBlank blanks → Laid [] blanks
  | cons {blanks l text : List Char} {ls : List (List Char)} : AllBlank blanks → Laid ls text →
      Laid (l :: ls) (blanks ++ (l ++ text))

namespace Laid

variable {ls ls' : List (List Char)} {l text text' blanks : List Char}

theorem append_left (h : Laid ls text) (hblanks : AllBlank blanks) : Laid ls (blanks ++ text) := by
  cases h with
  | nil hblanks' => exact .nil (hblanks.append hblanks')
  | cons hblanks' h =>
    rw [← List.append_assoc]
    exact .cons (hblanks.append hblanks') h

theorem append (h : Laid ls text) (h' : Laid ls' text') : Laid (ls ++ ls') (text ++ text') := by
  induction h with
  | nil hblanks => exact h'.append_left hblanks
  | cons hblanks _ ih =>
    rw [List.append_assoc, List.append_assoc]
    exact .cons hblanks ih

theorem append_right (h : Laid ls text) (hblanks : AllBlank blanks) : Laid ls (text ++ blanks) := by
  simpa using h.append (.nil hblanks)

theorem single (l : List Char) : Laid [l] l := by
  simpa using Laid.cons (l := l) AllBlank.nil (.nil .nil)

theorem flatten (ls : List (List Char)) : Laid ls ls.flatten := by
  induction ls with
  | nil => exact .nil .nil
  | cons l ls ih => exact .cons .nil ih

theorem of_nil (h : Laid [] text) : AllBlank text := by
  cases h
  assumption

theorem of_append (h : Laid (ls ++ ls') text) :
    ∃ first second, text = first ++ second ∧ Laid ls first ∧ Laid ls' second := by
  induction ls generalizing text with
  | nil => exact ⟨[], text, rfl, .nil .nil, h⟩
  | cons l ls ih =>
    cases h with
    | cons hblanks h =>
      obtain ⟨first, second, rfl, hfirst, hsecond⟩ := ih h
      exact ⟨_, second, by simp, .cons hblanks hfirst, hsecond⟩

theorem of_single (h : Laid [l] text) :
    ∃ before after, AllBlank before ∧ AllBlank after ∧ text = before ++ (l ++ after) := by
  cases h with
  | cons hblanks h => exact ⟨_, _, hblanks, h.of_nil, rfl⟩

theorem of_cons (h : Laid (l :: ls) text) :
    ∃ before after rest, AllBlank before ∧ AllBlank after ∧ Laid ls rest ∧
    text = before ++ (l ++ (after ++ rest)) := by
  cases h with
  | @cons before _ rest _ hblanks h => exact ⟨before, [], rest, hblanks, .nil, h, rfl⟩

end Laid

/-! ### What is scanned -/

section
variable {cs rest : List Char}

theorem takeWhile_append_of_head {p : Char → Bool} (hcs : ∀ c ∈ cs, p c = true)
    (hrest : ∀ c ∈ rest.head?, p c = false) : (cs ++ rest).takeWhile p = cs := by
  rw [List.takeWhile_append_of_pos hcs]
  cases rest with
  | nil => simp
  | cons c rest => simp [hrest c rfl]

theorem dropWhile_append_of_head {p : Char → Bool} (hcs : ∀ c ∈ cs, p c = true)
    (hrest : ∀ c ∈ rest.head?, p c = false) : (cs ++ rest).dropWhile p = rest := by
  rw [List.dropWhile_append_of_pos hcs]
  cases rest with
  | nil => rfl
  | cons c rest => simp [hrest c rfl]

theorem leadingDigits_append {ds : List Char} (hds : IsDigits ds)
    (hrest : ∀ c ∈ rest.head?, c.isDigit = false) :
    leadingDigits (ds ++ rest) = ds :=
  takeWhile_append_of_head hds.2 hrest

theorem leadingPlaces_append {fs : List Char} (hfs : IsDigits fs)
    (hrest : ∀ c ∈ rest.head?, c.isDigit = false) :
    leadingPlaces ('.' :: fs ++ rest) = '.' :: fs := by
  rw [List.cons_append, leadingPlaces, leadingDigits_append hfs hrest, if_neg hfs.1]

theorem leadingPlaces_eq_nil (hrest : ∀ c ∈ rest.head?, c ≠ '.') : leadingPlaces rest = [] := by
  unfold leadingPlaces
  split
  · exact absurd rfl (hrest _ rfl)
  · rfl

theorem leadingExponent_append {c : Char} {sign ds : List Char} (hc : c = 'e' ∨ c = 'E')
    (hsign : sign = [] ∨ sign = ['+'] ∨ sign = ['-']) (hds : IsDigits ds)
    (hrest : ∀ c ∈ rest.head?, c.isDigit = false) :
    leadingExponent (c :: (sign ++ ds) ++ rest) = c :: (sign ++ ds) := by
  obtain ⟨d, ds, rfl⟩ := List.exists_cons_of_ne_nil hds.1
  have hd : d.isDigit = true := hds.2 d (by simp)
  have hnot : ¬ (d = '+' ∨ d = '-') := by rintro (rfl | rfl) <;> cases hd
  have htake : ((sign ++ (d :: ds) ++ rest).takeWhile fun c => c == '+' || c == '-').take 1 =
      sign := by
    rcases hsign with rfl | rfl | rfl
    · simpa [List.takeWhile_cons] using hnot
    · simp
    · simp
  have hdrop : (sign ++ (d :: ds) ++ rest).drop sign.length = d :: ds ++ rest := by simp
  rw [List.cons_append, leadingExponent]
  simp only [htake, hdrop, leadingDigits_append hds hrest]
  exact if_pos ⟨hc, by simp⟩

theorem leadingExponent_eq_nil (hrest : ∀ c ∈ rest.head?, c ≠ 'e' ∧ c ≠ 'E') :
    leadingExponent rest = [] := by
  cases rest with
  | nil => rfl
  | cons c rest =>
    rw [leadingExponent]
    exact if_neg fun h => h.1.elim (hrest c rfl).1 (hrest c rfl).2

theorem leadingNumber_of_plain {ps : List Char} (hps : IsPlainNumeral ps)
    (hrest : ∀ c ∈ rest.head?, c.isDigit = false ∧ c ≠ '.') :
    leadingNumber (ps ++ rest) = ps ++ leadingExponent rest := by
  have hdigit : ∀ c ∈ rest.head?, c.isDigit = false := fun c hc => (hrest c hc).1
  rcases hps with hds | ⟨ds, fs, hds, hfs, rfl⟩
  · simp [leadingNumber, leadingDigits_append hds hdigit, leadingPlaces_eq_nil fun c hc =>
      (hrest c hc).2]
  · have hdigits : leadingDigits (ds ++ ('.' :: fs ++ rest)) = ds :=
      leadingDigits_append hds (by rintro c ⟨⟩; rfl)
    have hplaces := leadingPlaces_append hfs hdigit
    rw [List.append_assoc, leadingNumber]
    simp only [hdigits, List.drop_left, hplaces]
    rw [← List.drop_drop, List.drop_left, List.drop_left, List.append_assoc]

theorem leadingNumber_append {text : List Char} (htext : IsNumeral text)
    (hrest : ∀ c ∈ rest.head?, continuesNumber c = false) :
    leadingNumber (text ++ rest) = text := by
  have hstop : ∀ c ∈ rest.head?, c.isDigit = false ∧ c ≠ '.' ∧ c ≠ 'e' ∧ c ≠ 'E' := by
    intro c hc
    simpa [continuesNumber, and_assoc] using hrest c hc
  rcases htext with hps | ⟨ps, c, sign, ds, hps, hc, hsign, hds, rfl⟩
  · rw [leadingNumber_of_plain hps fun c hc => ⟨(hstop c hc).1, (hstop c hc).2.1⟩,
      leadingExponent_eq_nil fun c hc => (hstop c hc).2.2, List.append_nil]
  · rw [List.append_assoc, leadingNumber_of_plain hps,
      leadingExponent_append hc hsign hds fun c hc => (hstop c hc).1]
    rintro d ⟨⟩
    rcases hc with rfl | rfl <;> exact ⟨rfl, by decide⟩

/-- A character follows that ends a number or a name, if any does. -/
def Breaks (rest : List Char) : Prop := ∀ c ∈ rest.head?, isBlank c = true ∨ c ∈ marks

theorem Breaks.identifier (h : Breaks rest) :
    ∀ c ∈ rest.head?, isIdentifierChar c = false := fun c hc =>
  (h c hc).elim isIdentifierChar_of_isBlank fun hmark => (eq_false_of_mem_marks hmark).2.1

theorem continuesNumber_of_isBlank {c : Char} (h : isBlank c = true) :
    continuesNumber c = false := by
  simp only [isBlank, Bool.or_eq_true, beq_iff_eq] at h
  rcases h with ((rfl | rfl) | rfl) | rfl <;> rfl

theorem Breaks.number (h : Breaks rest) : ∀ c ∈ rest.head?, continuesNumber c = false := fun c hc =>
  (h c hc).elim continuesNumber_of_isBlank fun hmark => (eq_false_of_mem_marks hmark).2.2.2.1

end

section
variable {l rest text : List Char} {ls : List (List Char)}

theorem IsLexeme.head (h : IsLexeme l) : ∃ c cs, l = c :: cs ∧ isBlank c = false := by
  cases h with
  | number h =>
    obtain ⟨c, cs, rfl, hc⟩ := h.head
    refine ⟨c, cs, rfl, Bool.eq_false_iff.2 fun hblank => ?_⟩
    have hnot := continuesNumber_of_isBlank hblank
    simp [continuesNumber, hc] at hnot
  | identifier hname =>
    obtain ⟨c, cs, hcs, hc⟩ := head_of_isIdentifier hname
    exact ⟨c, cs, hcs, isBlank_of_isIdentifierStart hc⟩
  | quoted => exact ⟨_, _, rfl, rfl⟩
  | mark h =>
    obtain ⟨c, hc, rfl⟩ := h
    exact ⟨c, [], rfl, (eq_false_of_mem_marks hc).1⟩

/-- The scanner finds a lexeme, if what comes after it ends it. -/
theorem lexeme_append (h : IsLexeme l) (hrest : IsMark l ∨ Breaks rest) :
    lexeme (l ++ rest) = l := by
  have hmark {c : Char} {cs : List Char} (hl : l = c :: cs) : IsMark l → c ∈ marks := by
    rintro ⟨d, hd, rfl⟩
    cases hl
    exact hd
  cases h with
  | number h =>
    obtain ⟨c, cs, rfl, hc⟩ := h.head
    -- what a lexeme begins with tells its kind, and the scanner looks at that first
    have hstart : ¬ isIdentifierStart c = true := fun hstart => by
      simp [isDigit_of_isIdentifierStart hstart] at hc
    have hbreaks := hrest.resolve_left fun h => by
      simp [(eq_false_of_mem_marks (hmark rfl h)).2.2.2.2.1] at hc
    rw [List.cons_append, lexeme, if_neg hstart, if_pos hc]
    exact leadingNumber_append h hbreaks.number
  | @identifier name hname =>
    obtain ⟨c, cs, hcs, hc⟩ := head_of_isIdentifier hname
    have hbreaks := hrest.resolve_left fun h => by
      simp [(eq_false_of_mem_marks (hmark hcs h)).2.2.1] at hc
    rw [isIdentifier, hcs, Bool.and_eq_true, List.all_eq_true] at hname
    rw [hcs, List.cons_append, lexeme, if_pos hc,
      takeWhile_append_of_head hname.2 hbreaks.identifier]
  | @quoted cs hquote =>
    have hcs : ∀ c ∈ cs, (c != '\'') = true := by
      rintro c hc
      rw [bne_iff_ne]
      rintro rfl
      exact hquote hc
    have hclose : ∀ c ∈ ('\'' :: rest).head?, (c != '\'') = false := by rintro c ⟨⟩; rfl
    rw [List.cons_append, List.append_assoc, List.singleton_append, lexeme,
      takeWhile_append_of_head hcs hclose, dropWhile_append_of_head hcs hclose]
    rfl
  | mark h =>
    obtain ⟨c, hc, rfl⟩ := h
    obtain ⟨-, -, hstart, -, hdigit, hquote⟩ := eq_false_of_mem_marks hc
    rw [List.singleton_append, lexeme, if_neg (by simp [hstart]), if_neg (by simp [hdigit]),
      if_neg hquote]

theorem lexemes_of_blank (h : AllBlank text) : lexemes text = [] := by
  have htext : text.dropWhile isBlank = [] := List.dropWhile_eq_nil_iff.2 h
  unfold lexemes
  split
  · rfl
  · rename_i hcons
    cases htext.symm.trans hcons

theorem lexemes_append {blanks : List Char} (hblanks : AllBlank blanks) (hl : IsLexeme l)
    (hrest : IsMark l ∨ Breaks rest) : lexemes (blanks ++ (l ++ rest)) = l :: lexemes rest := by
  have hfirst := lexeme_append hl hrest
  obtain ⟨c, cs, rfl, hc⟩ := hl.head
  have htext : (blanks ++ (c :: cs ++ rest)).dropWhile isBlank = c :: (cs ++ rest) := by
    rw [hblanks.dropWhile_append, List.cons_append, List.dropWhile_cons_of_neg (by simp [hc])]
  rw [lexemes]
  split
  · rename_i hnil
    cases htext.symm.trans hnil
  · rename_i hcons
    cases htext.symm.trans hcons
    rw [← List.cons_append, hfirst, List.drop_left]

/-! ### What is laid out -/

theorem Laid.breaks (h : Laid ls text) (hls : ∀ l ∈ ls.head?, IsMark l) : Breaks text := by
  cases h with
  | nil hblanks => exact fun c hc => .inl (hblanks c (List.mem_of_mem_head? hc))
  | @cons blanks l text ls hblanks h =>
    obtain ⟨c, hc, rfl⟩ := hls l rfl
    cases blanks with
    | nil =>
      rintro d ⟨⟩
      exact .inr hc
    | cons b blanks =>
      rintro d ⟨⟩
      exact .inl (hblanks _ (by simp))

theorem Separated.tail (h : Separated (l :: ls)) : Separated ls where
  lexeme := (List.forall_mem_cons.1 h.lexeme).2
  chain := h.chain.tail

/-- The lexemes of a text are those it was laid out from. -/
theorem Laid.lexemes_eq (h : Laid ls text) (hls : Separated ls) : lexemes text = ls := by
  induction h with
  | nil hblanks => exact lexemes_of_blank hblanks
  | @cons blanks l text ls hblanks h ih =>
    have hrest : IsMark l ∨ Breaks text := by
      by_cases hl : IsMark l
      · exact .inl hl
      · refine .inr (h.breaks fun l' hl' => ?_)
        cases ls with
        | nil => cases hl'
        | cons l' ls =>
          cases hl'
          exact ((List.isChain_cons_cons.1 hls.chain).1).resolve_left hl
    rw [lexemes_append hblanks (hls.lexeme l (by simp)) hrest, ih hls.tail]

example : lexemes "exp(x1 ^2.5e-3)-'a b'".toList =
    ["exp".toList, ['('], "x1".toList, ['^'], "2.5e-3".toList, [')'], ['-'], "'a b'".toList] := by
  decide +kernel

/-! ### Without the blanks -/

theorem withoutBlanks_sublist (quoted : Bool) (cs : List Char) :
    (withoutBlanks quoted cs).Sublist cs := by
  induction cs generalizing quoted with
  | nil => exact .slnil
  | cons c cs ih =>
    rw [withoutBlanks]
    split
    · exact (ih _).cons_cons c
    split
    · exact (ih _).cons c
    · exact (ih _).cons_cons c

theorem withoutBlanks_blanks {blanks : List Char} (h : AllBlank blanks) (cs : List Char) :
    withoutBlanks false (blanks ++ cs) = withoutBlanks false cs := by
  induction blanks with
  | nil => rfl
  | cons b blanks ih =>
    obtain ⟨hb, h⟩ := List.forall_mem_cons.1 h
    have hquote : b ≠ '\'' := by rintro rfl; cases hb
    rw [List.cons_append, withoutBlanks, if_neg hquote, if_pos (by simp [hb]), ih h]

theorem withoutBlanks_unquoted {cs : List Char} (h : ∀ c ∈ cs, c ≠ '\'' ∧ isBlank c = false)
    (rest : List Char) : withoutBlanks false (cs ++ rest) = cs ++ withoutBlanks false rest := by
  induction cs with
  | nil => rfl
  | cons c cs ih =>
    obtain ⟨⟨hquote, hblank⟩, h⟩ := List.forall_mem_cons.1 h
    rw [List.cons_append, withoutBlanks, if_neg hquote, if_neg (by simp [hblank]), ih h]
    rfl

theorem withoutBlanks_quoted {cs : List Char} (h : '\'' ∉ cs) (rest : List Char) :
    withoutBlanks true (cs ++ rest) = cs ++ withoutBlanks true rest := by
  induction cs with
  | nil => rfl
  | cons c cs ih =>
    rw [List.mem_cons, not_or] at h
    rw [List.cons_append, withoutBlanks, if_neg (Ne.symm h.1), if_neg (by simp), ih h.2]
    rfl

theorem mem_isNumeral {text : List Char} (h : IsNumeral text) {c : Char} (hc : c ∈ text) :
    c.isDigit = true ∨ c ∈ ['.', 'e', 'E', '+', '-'] := by
  have hplain {ps : List Char} (hps : IsPlainNumeral ps) (hc : c ∈ ps) :
      c.isDigit = true ∨ c = '.' := by
    rcases hps with hds | ⟨ds, fs, hds, hfs, rfl⟩
    · exact .inl (hds.2 c hc)
    · rw [List.mem_append, List.mem_cons] at hc
      rcases hc with hc | rfl | hc
      · exact .inl (hds.2 c hc)
      · exact .inr rfl
      · exact .inl (hfs.2 c hc)
  rcases h with hps | ⟨ps, d, sign, ds, hps, hd, hsign, hds, rfl⟩
  · exact (hplain hps hc).imp_right (by rintro rfl; simp)
  · rw [List.mem_append, List.mem_cons, List.mem_append] at hc
    rcases hc with hc | rfl | hc | hc
    · exact (hplain hps hc).imp_right (by rintro rfl; simp)
    · exact .inr (by rcases hd with rfl | rfl <;> simp)
    · exact .inr (by rcases hsign with rfl | rfl | rfl <;> simp_all)
    · exact .inl (hds.2 c hc)

theorem IsLexeme.withoutBlanks_append (h : IsLexeme l) (rest : List Char) :
    withoutBlanks false (l ++ rest) = l ++ withoutBlanks false rest := by
  cases h with
  | number h =>
    refine withoutBlanks_unquoted (fun c hc => ?_) rest
    have hchar := mem_isNumeral h hc
    refine ⟨?_, Bool.eq_false_iff.2 fun hblank => ?_⟩
    · rintro rfl
      revert hchar
      decide
    · simp only [isBlank, Bool.or_eq_true, beq_iff_eq] at hblank
      rcases hblank with ((rfl | rfl) | rfl) | rfl <;> revert hchar <;> decide
  | @identifier name hname =>
    refine withoutBlanks_unquoted (fun c hc => ⟨?_, ?_⟩) rest
    · rintro rfl
      exact quote_not_mem_of_isIdentifier hname hc
    · obtain ⟨d, ds, hds, hd⟩ := head_of_isIdentifier hname
      rw [isIdentifier, hds, Bool.and_eq_true, List.all_eq_true] at hname
      rw [hds, List.mem_cons] at hc
      rcases hc with rfl | hc
      · exact isBlank_of_isIdentifierStart hd
      · exact Bool.eq_false_iff.2 fun hblank => by
          simpa [isIdentifierChar_of_isBlank hblank] using hname.2 c hc
  | @quoted cs hquote =>
    have hopen (cs : List Char) :
        withoutBlanks false ('\'' :: cs) = '\'' :: withoutBlanks true cs := rfl
    have hclose (cs : List Char) :
        withoutBlanks true ('\'' :: cs) = '\'' :: withoutBlanks false cs := rfl
    rw [List.cons_append, hopen, List.append_assoc, withoutBlanks_quoted hquote,
      List.singleton_append, hclose]
    simp
  | mark h =>
    obtain ⟨c, hc, rfl⟩ := h
    obtain ⟨hblank, -, -, -, -, hquote⟩ := eq_false_of_mem_marks hc
    exact withoutBlanks_unquoted (List.forall_mem_singleton.2 ⟨hquote, hblank⟩) rest

/-- Without the blanks, the lexemes stand next to each other. -/
theorem Laid.withoutBlanks_eq (h : Laid ls text) (hls : ∀ l ∈ ls, IsLexeme l) :
    withoutBlanks false text = ls.flatten := by
  induction h with
  | nil hblanks => simpa [withoutBlanks] using withoutBlanks_blanks hblanks []
  | cons hblanks _ ih =>
    obtain ⟨hl, hls⟩ := List.forall_mem_cons.1 hls
    rw [withoutBlanks_blanks hblanks, hl.withoutBlanks_append, ih hls, List.flatten_cons]

theorem byteLength_le_of_sublist {cs ds : List Char} (h : cs.Sublist ds) :
    byteLength cs ≤ byteLength ds := by
  induction h with
  | slnil => exact le_rfl
  | cons c _ ih => exact ih.trans (Nat.le_add_left ..)
  | cons_cons c _ ih => exact Nat.add_le_add_left ih _

end

end ModalBounds
