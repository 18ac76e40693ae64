import ModalBounds.Proofs.Syntax.Lexeme
import ModalBounds.Proofs.Syntax.Spelling

/-!
# Blanks in expressions

What a source is read as depends on its lexemes only. The text of a rule is a list of lexemes, with
blanks between them, and the same lexemes spell the same expression however they are laid out
(`Spells.exists_layout`); between two numbers or names there always stands a mark, so the scanner
finds the same lexemes in each of these texts. So blanks outside of quotes can be left out, and
blanks between two lexemes can be put in (`read_blanks`).
-/

namespace ModalBounds

theorem Separated.single {l : List Char} (h : IsLexeme l) : Separated [l] :=
  ⟨List.forall_mem_singleton.2 h, .singleton l⟩

theorem Separated.nil : Separated [] := ⟨List.forall_mem_nil _, .nil⟩

theorem Separated.append_mark {ls ls' : List (List Char)} {c : Char} (h : Separated ls)
    (h' : Separated ls')
    (hc : c ∈ marks) : Separated (ls ++ [c] :: ls') where
  lexeme :=
    List.forall_mem_append.2 ⟨h.lexeme, List.forall_mem_cons.2 ⟨.mark ⟨c, hc, rfl⟩, h'.lexeme⟩⟩
  chain := by
    have hmark : IsMark [c] := ⟨c, hc, rfl⟩
    refine List.isChain_append.2
      ⟨h.chain, List.isChain_cons.2 ⟨fun l _ => .inl hmark, h'.chain⟩, fun l _ l' hl' => ?_⟩
    cases hl'
    exact .inr hmark

namespace Expr

section
variable {α : Type} [Scalar α] [Numeral α]

/-- A text spells an expression, with blanks around it. -/
def SpellsWithin (b : Assembly α) (r : Rule) (text : List Char) (e : Expr α) : Prop :=
  ∃ before body after,
    AllBlank before ∧ AllBlank after ∧ text = before ++ (body ++ after) ∧ Spells b r body e

/-- Lexemes spell an expression, however they are laid out. -/
structure Layout (b : Assembly α) (r : Rule) (ls : List (List Char)) (e : Expr α) : Prop where
  separated : Separated ls
  spells {text : List Char} : Laid ls text → SpellsWithin b r text e

variable {b : Assembly α} {r r' : Rule} {text : List Char} {ls : List (List Char)} {e e' : Expr α}

theorem SpellsWithin.padded (h : SpellsWithin b .expression text e) :
    Spells b .expressionFile text e := by
  obtain ⟨before, body, after, hbefore, hafter, rfl, h⟩ := h
  exact .padded hbefore hafter h

theorem SpellsWithin.expressionFile (h : SpellsWithin b .expressionFile text e) :
    Spells b .expressionFile text e := by
  obtain ⟨before, _, after, hbefore, hafter, rfl, h⟩ := h
  cases h with
  | @padded before' body after' _ hbefore' hafter' h =>
    have htext :
        before ++ (before' ++ (body ++ after') ++ after) =
          (before ++ before') ++ (body ++ (after' ++ after)) := by
      simp
    rw [htext]
    exact .padded (hbefore.append hbefore') (hafter'.append hafter) h

namespace Layout

theorem single {l : List Char} (hl : IsLexeme l) (h : Spells b r l e) : Layout b r [l] e where
  separated := .single hl
  spells hlaid := by
    obtain ⟨before, after, hbefore, hafter, rfl⟩ := hlaid.of_single
    exact ⟨before, l, after, hbefore, hafter, rfl, h⟩

theorem map (h : Layout b r ls e)
    (hr : ∀ {body : List Char}, Spells b r body e → Spells b r' body e') :
    Layout b r' ls e' where
  separated := h.separated
  spells hlaid := by
    obtain ⟨before, body, after, hbefore, hafter, rfl, hbody⟩ := h.spells hlaid
    exact ⟨before, body, after, hbefore, hafter, rfl, hr hbody⟩

theorem parens (h : Layout b .expressionFile ls e) :
    Layout b .primary ([] ++ ['('] :: (ls ++ [')'] :: [])) e where
  separated := .append_mark .nil (h.separated.append_mark .nil (by decide)) (by decide)
  spells hlaid := by
    obtain ⟨before, after, _, hbefore, hafter, hrest, rfl⟩ := Laid.of_cons hlaid
    obtain ⟨inner, _, rfl, hinner, hclose⟩ := hrest.of_append
    obtain ⟨before', after', hbefore', hafter', rfl⟩ := hclose.of_single
    have hspells := h.spells ((hinner.append_left hafter).append_right hbefore')
    exact ⟨before, _, after', hbefore, hafter', by simp, .parens hspells.expressionFile⟩

theorem power {ls' : List (List Char)} (h : Layout b .primary ls e) (h' : Layout b .unary ls' e') :
    Layout b .unary (ls ++ ['^'] :: ls') (binary .power e e') where
  separated := h.separated.append_mark h'.separated (by decide)
  spells hlaid := by
    obtain ⟨base, _, rfl, hbase, hrest⟩ := hlaid.of_append
    obtain ⟨blanks, blanks', exponent, hblanks, hblanks', hexponent, rfl⟩ := hrest.of_cons
    obtain ⟨before, body, after, hbefore, hafter, rfl, hbody⟩ := h.spells hbase
    obtain ⟨before', body', after', hbefore', hafter', rfl, hbody'⟩ := h'.spells hexponent
    refine ⟨before, _, after', hbefore, hafter', ?_,
      .power hbody (hafter.append hblanks) (hblanks'.append hbefore') hbody'⟩
    simp

theorem minus (h : Layout b .unary ls e) : Layout b .unary ([] ++ ['-'] :: ls) (b.negate e) where
  separated := .append_mark .nil h.separated (by decide)
  spells hlaid := by
    obtain ⟨before, blanks, _, hbefore, hblanks, hrest, rfl⟩ := Laid.of_cons hlaid
    obtain ⟨before', body, after, hbefore', hafter, rfl, hbody⟩ := h.spells hrest
    refine ⟨before, _, after, hbefore, hafter, ?_, .minus (hblanks.append hbefore') hbody⟩
    simp

end Layout

/-- The lexemes of the operators and operands that continue a chain. What is pending are the blanks
after what comes before them. -/
theorem exists_layout_links {operators : List Char} (hoperators : operators ⊆ marks)
    {links : List (Link α)} (hlinks : ∀ l ∈ links, l.Separates operators)
    (h : ∀ l ∈ links, ∃ ls, Laid ls l.text ∧ Layout b r ls l.operand) :
    ∃ ls, Laid ls (links.flatMap Link.chars) ∧
      (∀ first, Separated first → Separated (first ++ ls)) ∧
      ∀ {pending text : List Char},
        AllBlank pending → Laid ls text → ∃ (links' : List (Link α)) (after : List Char),
        AllBlank after ∧ pending ++ text = links'.flatMap Link.chars ++ after ∧
        (∀ l ∈ links', l.Separates operators) ∧ (∀ l ∈ links', Spells b r l.text l.operand) ∧
        ∀ e : Expr α, e.chain b.join links' = e.chain b.join links := by
  induction links with
  | nil =>
    refine ⟨[], .nil .nil, fun first hfirst =>
      by simpa using hfirst, fun {pending text} hpending hlaid => ?_⟩
    exact ⟨[], pending ++ text, hpending.append hlaid.of_nil, rfl, List.forall_mem_nil _,
      List.forall_mem_nil _, fun _ => rfl⟩
  | cons l links ih =>
    rw [List.forall_mem_cons] at hlinks h
    obtain ⟨ls, hlaid, hlayout⟩ := h.1
    obtain ⟨ls', hlaid', hseparated, hrelaid⟩ := ih hlinks.2 h.2
    refine ⟨[l.operator] :: (ls ++ ls'), ?_, fun first hfirst => ?_,
      fun {pending text} hpending htext => ?_⟩
    · have hchars : (l :: links).flatMap Link.chars =
          l.before ++ ([l.operator] ++ (l.after ++ (l.text ++ links.flatMap Link.chars))) := by
        simp [Link.chars]
      rw [hchars]
      exact .cons hlinks.1.before ((hlaid.append hlaid').append_left hlinks.1.after)
    · exact hfirst.append_mark (hseparated ls hlayout.separated) (hoperators hlinks.1.operator)
    -- blanks behind an operand now come before the next operator, and are passed on as pending
    · obtain ⟨before, after, _, hbefore, hafter, hrest, rfl⟩ := htext.of_cons
      obtain ⟨operand, _, rfl, hoperand, htail⟩ := hrest.of_append
      obtain ⟨before', body, after', hbefore', hafter', rfl, hbody⟩ := hlayout.spells hoperand
      obtain ⟨links', last, hlast, hchars, hseparates, hspells, hchain⟩ := hrelaid hafter' htail
      refine ⟨⟨pending ++ before, l.operator, after ++ before', body, l.operand⟩ :: links',
        last, hlast, ?_,
        List.forall_mem_cons.2
          ⟨⟨hlinks.1.operator, hpending.append hbefore, hafter.append hbefore'⟩, hseparates⟩,
          List.forall_mem_cons.2 ⟨hbody, hspells⟩, fun e => hchain _⟩
      rw [List.flatMap_cons, List.append_assoc _ _ last, ← hchars]
      simp [Link.chars]

theorem Layout.chain {parent : Rule} {operators : List Char} (hoperators : operators ⊆ marks)
    {links : List (Link α)}
    (hparent : ∀ {text : List Char} {links : List (Link α)},
      Spells b r text e → (∀ l ∈ links, l.Separates operators) →
      (∀ l ∈ links, Spells b r l.text l.operand) →
      Spells b parent (text ++ links.flatMap Link.chars) (e.chain b.join links))
    (hlinks : ∀ l ∈ links, l.Separates operators)
    (h : ∃ ls, Laid ls text ∧ Layout b r ls e)
    (hs : ∀ l ∈ links, ∃ ls, Laid ls l.text ∧ Layout b r ls l.operand) :
    ∃ ls, Laid ls (text ++ links.flatMap Link.chars) ∧
      Layout b parent ls (e.chain b.join links) := by
  obtain ⟨ls, hlaid, hlayout⟩ := h
  obtain ⟨ls', hlaid', hseparated, hrelaid⟩ := exists_layout_links hoperators hlinks hs
  refine ⟨ls ++ ls', hlaid.append hlaid', hseparated ls hlayout.separated, fun htext => ?_⟩
  obtain ⟨first, rest, rfl, hfirst, hrest⟩ := htext.of_append
  obtain ⟨before, body, after, hbefore, hafter, rfl, hbody⟩ := hlayout.spells hfirst
  obtain ⟨links', last, hlast, hchars, hseparates, hspells, hchain⟩ := hrelaid hafter hrest
  refine ⟨before, body ++ links'.flatMap Link.chars, last, hbefore, hlast, ?_, ?_⟩
  · rw [List.append_assoc _ _ last, ← hchars]
    simp
  · rw [← hchain e]
    exact hparent hbody hseparates hspells

theorem exists_layout_arguments {args : List (List Char × Expr α)} (hne : args ≠ [])
    (h : ∀ p ∈ args, ∃ ls, Laid ls p.1 ∧ Layout b .expressionFile ls p.2) :
    ∃ ls, Laid ls ([','].intercalate (args.map (·.1))) ∧ Separated ls ∧ ∀ {text : List Char},
      Laid ls text →
      ∃ args' : List (List Char × Expr α), args' ≠ [] ∧ args'.map (·.2) = args.map (·.2) ∧
        text = [','].intercalate (args'.map (·.1)) ∧ ∀ p ∈ args',
        Spells b .expressionFile p.1 p.2 := by
  induction args with
  | nil => exact absurd rfl hne
  | cons p args ih =>
    rw [List.forall_mem_cons] at h
    obtain ⟨ls, hlaid, hlayout⟩ := h.1
    by_cases hargs : args = []
    · subst hargs
      refine ⟨ls, by simpa using hlaid, hlayout.separated, fun {text} htext => ?_⟩
      exact ⟨[(text, p.2)],
        by simp, rfl, by simp, List.forall_mem_singleton.2 (hlayout.spells htext).expressionFile⟩
    · obtain ⟨ls', hlaid', hseparated, hrelaid⟩ := ih hargs h.2
      refine ⟨ls ++ [','] :: ls', ?_, hlayout.separated.append_mark hseparated (by decide),
        fun {text} htext => ?_⟩
      · rw [List.map_cons, List.intercalate_cons_of_ne_nil (by simpa using hargs)]
        rw [List.append_assoc]
        exact hlaid.append (.cons .nil hlaid')
      · obtain ⟨first, _, rfl, hfirst, hcomma⟩ := htext.of_append
        obtain ⟨before, after, rest, hbefore, hafter, hrest, rfl⟩ := hcomma.of_cons
        obtain ⟨args', hne', hvalues, hchars, hspells⟩ := hrelaid (hrest.append_left hafter)
        refine ⟨(first ++ before, p.2) :: args', by simp, by simp [hvalues], ?_,
          List.forall_mem_cons.2
            ⟨(hlayout.spells (hfirst.append_right hbefore)).expressionFile, hspells⟩⟩
        rw [List.map_cons, List.intercalate_cons_of_ne_nil (by simpa using hne'), ← hchars]
        simp

/-- What a text spells, its lexemes spell however they are laid out. -/
theorem Spells.exists_layout (h : Spells b r text e) : ∃ ls, Laid ls text ∧ Layout b r ls e := by
  induction h with
  | number h hv => exact ⟨_, .single _, .single (.number h) (.number h hv)⟩
  | identifier hname => exact ⟨_, .single _, .single (.identifier hname) (.identifier hname)⟩
  | quoted hne hquote => exact ⟨_, .single _, .single (.quoted hquote) (.quoted hne hquote)⟩
  | @call name blanks args s arity hname hblanks hne _ hcall harity ih =>
    obtain ⟨ls, hlaid, hseparated, hrelaid⟩ := exists_layout_arguments hne ih
    refine ⟨[name.toList] ++ ['('] :: (ls ++ [')'] :: []), ?_, ?_, fun {text} htext => ?_⟩
    · exact (Laid.single _).append (.cons hblanks (hlaid.append (.single _)))
    · exact .append_mark (.single (.identifier hname))
        (hseparated.append_mark .nil (by decide)) (by decide)
    · obtain ⟨before, after, _, hbefore, hafter, hopen, rfl⟩ := Laid.of_cons htext
      obtain ⟨before', after', _, hbefore', hafter', hinside, rfl⟩ := Laid.of_cons hopen
      obtain ⟨inner, _, rfl, hinner, hclose⟩ := hinside.of_append
      obtain ⟨last, rest, hlast, hrest, rfl⟩ := hclose.of_single
      obtain ⟨args', hne', hvalues, hchars, hspells⟩ :=
        hrelaid ((hinner.append_left hafter').append_right hlast)
      have harity' : arity.accepts args'.length = true := by
        rwa [← args'.length_map (·.2), hvalues, List.length_map]
      rw [← hvalues]
      refine ⟨before, _, rest, hbefore, hrest, ?_,
        .call hname (hafter.append hbefore') hne' hspells hcall harity'⟩
      rw [← hchars]
      simp
  | parens _ ih =>
    obtain ⟨ls, hlaid, hlayout⟩ := ih
    exact ⟨_, .cons .nil (hlaid.append (.single _)), hlayout.parens⟩
  | primary _ ih =>
    obtain ⟨ls, hlaid, hlayout⟩ := ih
    exact ⟨ls, hlaid, hlayout.map .primary⟩
  | power _ hbefore hafter _ ih ih' =>
    obtain ⟨ls, hlaid, hlayout⟩ := ih
    obtain ⟨ls', hlaid', hlayout'⟩ := ih'
    exact ⟨_, hlaid.append (.cons hbefore (hlaid'.append_left hafter)), hlayout.power hlayout'⟩
  | minus hblanks _ ih =>
    obtain ⟨ls, hlaid, hlayout⟩ := ih
    exact ⟨_, .cons .nil (hlaid.append_left hblanks), hlayout.minus⟩
  | product _ hlinks _ ih ihs => exact Layout.chain (by decide) .product hlinks ih ihs
  | sum _ hlinks _ ih ihs => exact Layout.chain (by decide) .sum hlinks ih ihs
  | padded hbefore hafter _ ih =>
    obtain ⟨ls, hlaid, hlayout⟩ := ih
    refine ⟨ls, (hlaid.append_right hafter).append_left hbefore, hlayout.separated, fun htext => ?_⟩
    exact ⟨[], _, [], .nil, .nil, by simp, (hlayout.spells htext).padded⟩

/-! ### Sources -/

variable {limits : Limits} {source : String}

theorem laid_lexemes_of_read (h : read limits source = .ok e) :
    Separated (lexemes source.toList) ∧ Laid (lexemes source.toList) source.toList := by
  obtain ⟨-, hspells, -⟩ := read_eq_ok_iff_spells.1 h
  obtain ⟨ls, hlaid, hlayout⟩ := hspells.exists_layout
  rw [hlaid.lexemes_eq hlayout.separated]
  exact ⟨hlayout.separated, hlaid⟩

/-- Every text with the lexemes of a source is read as the same expression, if the limits allow its
length. -/
theorem read_of_laid (h : read limits source = .ok e) (hlaid : Laid (lexemes source.toList) text)
    (hsize : byteLength text ≤ limits.sourceBytes) : read limits (String.ofList text) = .ok e := by
  obtain ⟨-, hspells, hallows⟩ := read_eq_ok_iff_spells.1 h
  obtain ⟨ls, hsource, hlayout⟩ := hspells.exists_layout
  rw [hsource.lexemes_eq hlayout.separated] at hlaid
  refine read_eq_ok_iff_spells.2 ⟨by rwa [utf8ByteSize_ofList], ?_, hallows⟩
  rw [String.toList_ofList]
  exact (hlayout.spells hlaid).expressionFile

/-- Blanks outside of quotes may be left out of a source, and blanks may be put in between two of
its lexemes. -/
theorem read_blanks (h : read limits source = .ok e) :
    read limits (String.ofList (withoutBlanks false source.toList)) = .ok e ∧
    Separated (lexemes source.toList) ∧ Laid (lexemes source.toList) source.toList ∧
    ∀ {ls ls' : List (List Char)} {before blanks after : List Char},
      lexemes source.toList = ls ++ ls' →
      source.toList = before ++ after → Laid ls before → Laid ls' after → AllBlank blanks →
      (String.ofList (before ++ (blanks ++ after))).utf8ByteSize ≤ limits.sourceBytes →
      read limits (String.ofList (before ++ (blanks ++ after))) = .ok e := by
  obtain ⟨hseparated, hlaid⟩ := laid_lexemes_of_read h
  refine ⟨?_, hseparated, hlaid,
    fun {ls ls' before blanks after} hls _ hbefore hafter hblanks hsize => ?_⟩
  · refine read_of_laid h ?_ ?_
    · rw [hlaid.withoutBlanks_eq hseparated.lexeme]
      exact .flatten _
    · have hsize := (read_eq_ok_iff_spells.1 h).1
      rw [← source.ofList_toList, utf8ByteSize_ofList] at hsize
      exact (byteLength_le_of_sublist (withoutBlanks_sublist false _)).trans hsize
  · rw [utf8ByteSize_ofList] at hsize
    refine read_of_laid h ?_ hsize
    rw [hls]
    exact hbefore.append (hafter.append_left hblanks)

/-- What `'a b' *(x- 2)` is read as. -/
def quotedTimesDifference : Expr Float :=
  node .mul [ofVariable "a b", node .sub [ofVariable "x", constant 2]]

theorem read_blanks_quotedTimesDifference : read {} "'a b' *(x- 2)" = .ok quotedTimesDifference ∧
    read {} "'a b'*(x-2)" = .ok quotedTimesDifference ∧
    read {} "'a b' *\n\t(x- 2)" = .ok quotedTimesDifference := by
  have hread : read {} "'a b' *(x- 2)" = .ok quotedTimesDifference :=
    toOption_eq_some.1 (by decide +kernel)
  have hbefore : Laid ["'a b'".toList, ['*']] "'a b' *".toList :=
    .cons .nil (.cons .single (.nil .nil))
  have hafter : Laid [['('], ['x'], ['-'], ['2'], [')']] "(x- 2)".toList :=
    .cons .nil (.cons .nil (.cons .nil (.cons .single (.cons .nil (.nil .nil)))))
  have hblanks : AllBlank ['\n', '\t'] := by simp [AllBlank, isBlank]
  have hdeleted : String.ofList (withoutBlanks false "'a b' *(x- 2)".toList) = "'a b'*(x-2)" := by
    decide +kernel
  have hinserted : String.ofList ("'a b' *".toList ++ (['\n', '\t'] ++ "(x- 2)".toList)) =
      "'a b' *\n\t(x- 2)" := by
    decide +kernel
  obtain ⟨hdelete, -, -, hinsert⟩ := read_blanks hread
  refine ⟨hread, hdeleted ▸ hdelete, ?_⟩
  rw [← hinserted]
  exact hinsert (by decide +kernel) (by decide +kernel) hbefore hafter hblanks (by decide +kernel)

end

end Expr

end ModalBounds
