import ModalBounds.Proofs.Syntax.NumberText
import ModalBounds.Proofs.Syntax.Written

/-!
# Texts that are read as expressions

`ReadsAs r text e` says that a rule for expressions reads a text as `e`, whatever follows it, as
long as nothing follows that could continue it (`Stops`). What a tighter rule reads is read by the
looser ones (`ReadsAs.expression`), parentheses make a primary of it (`ReadsPadded.parens`), and
chains, powers and calls are read as their parts are, with any blanks between them
(`ChainLevel.reads`).
-/

namespace ModalBounds

/-! ### Blanks between the parts -/

/-- Characters that may stand between the parts of an expression. -/
def AllBlank (cs : List Char) : Prop := ∀ c ∈ cs, isBlank c = true

theorem AllBlank.nil : AllBlank [] := List.forall_mem_nil _

theorem AllBlank.single : AllBlank [' '] := List.forall_mem_singleton.2 rfl

theorem AllBlank.append {cs ds : List Char} (h : AllBlank cs) (h' : AllBlank ds) :
    AllBlank (cs ++ ds) :=
  List.forall_mem_append.2 ⟨h, h'⟩

theorem AllBlank.dropWhile_append {blanks : List Char} (h : AllBlank blanks) (cs : List Char) :
    (blanks ++ cs).dropWhile isBlank = cs.dropWhile isBlank :=
  List.dropWhile_append_of_pos h

theorem isIdentifierChar_of_isBlank {c : Char} (h : isBlank c = true) :
    isIdentifierChar c = false := by
  simp only [isBlank, Bool.or_eq_true, beq_iff_eq] at h
  rcases h with ((rfl | rfl) | rfl) | rfl <;> rfl

/-- The characters that may come directly after a primary. -/
def closers : List Char := [')', ',', '^', '*', '/', '+', '-']

theorem cases_of_mem_closers {c : Char} (h : c ∈ closers) :
    c = ')' ∨ c = ',' ∨ c = '^' ∨ c = '*' ∨ c = '/' ∨ c = '+' ∨ c = '-' := by
  simpa [closers] using h

theorem isBlank_of_mem_closers {c : Char} (h : c ∈ closers) : isBlank c = false := by
  rcases cases_of_mem_closers h with rfl | rfl | rfl | rfl | rfl | rfl | rfl <;> rfl

/-- A text ends before `rest`: the next character cannot belong to it, nor is the next one after
blanks among those that would continue it. -/
structure Stops (continuing rest : List Char) : Prop where
  head : ∀ c ∈ rest.head?, isBlank c = true ∨ c ∈ closers
  next : ∀ c ∈ (rest.dropWhile isBlank).head?, c ∉ continuing

namespace Stops

variable {continuing rest : List Char}

theorem mono {fewer : List Char} (h : Stops continuing rest) (hsub : fewer ⊆ continuing) :
    Stops fewer rest :=
  ⟨h.head, fun c hc hmem => h.next c hc (hsub hmem)⟩

theorem nil : Stops continuing [] := ⟨by simp, by simp⟩

theorem cons {c : Char} (hc : c ∈ closers) (h : c ∉ continuing) : Stops continuing (c :: rest) := by
  have hblank := isBlank_of_mem_closers hc
  constructor
  · intro d hd
    cases hd
    exact .inr hc
  · intro d hd
    rw [List.dropWhile_cons_of_neg (by simp [hblank])] at hd
    cases hd
    exact h

theorem blanks {blanks : List Char} (hblanks : AllBlank blanks) (h : Stops continuing rest) :
    Stops continuing (blanks ++ rest) := by
  refine ⟨fun c hc => ?_, fun c hc => h.next c ?_⟩
  · cases blanks with
    | nil => exact h.head c hc
    | cons b blanks =>
      cases hc
      exact .inl (hblanks _ (by simp))
  · rwa [hblanks.dropWhile_append] at hc

theorem identifier (h : Stops continuing rest) : ∀ c ∈ rest.head?, isIdentifierChar c = false := by
  intro c hc
  rcases h.head c hc with hblank | hc
  · exact isIdentifierChar_of_isBlank hblank
  · rcases cases_of_mem_closers hc with rfl | rfl | rfl | rfl | rfl | rfl | rfl <;> rfl

theorem number (h : Stops continuing rest) : ∀ c ∈ rest.head?, continuesNumber c = false := by
  intro c hc
  rcases h.head c hc with hblank | hc
  · simp only [isBlank, Bool.or_eq_true, beq_iff_eq] at hblank
    rcases hblank with ((rfl | rfl) | rfl) | rfl <;> rfl
  · rcases cases_of_mem_closers hc with rfl | rfl | rfl | rfl | rfl | rfl | rfl <;> rfl

end Stops

/-- The characters that could continue a match of a rule. -/
def continuing : Rule → List Char
  | .primary => ['(']
  | .unary => ['(', '^']
  | .term => ['(', '^', '*', '/']
  | _ => ['(', '^', '*', '/', '+', '-']

namespace Expr

variable {α : Type} [Scalar α] [Numeral α]

/-- The rule reads the text as the expression. -/
structure ReadsAs (r : Rule) (text : List Char) (e : Expr α) : Prop where
  opens : ∃ c cs, text = c :: cs ∧ isBlank c = false
  reads : ∀ {m : Mark} {rest : List Char}, m.rest = text ++ rest → Stops (continuing r) rest →
    ∃ n t, modelGrammar.Yields false (.rule r) m (some (n, [t])) ∧
      n.rest.dropWhile isBlank = rest.dropWhile isBlank ∧ ∀ source, ofToken source t = .ok e

end Expr

/-! ### Repetitions -/

section
variable {s : Bool} {m : Mark}

theorem rest_skipBlanks (m : Mark) : (skipBlanks isBlank m).rest = m.rest.dropWhile isBlank := rfl

theorem dropWhile_isBlank_of_opens {text rest : List Char}
    (h : ∃ c cs, text = c :: cs ∧ isBlank c = false) :
    (text ++ rest).dropWhile isBlank = text ++ rest := by
  obtain ⟨c, cs, rfl, hc⟩ := h
  simp [hc]

theorem rest_skipBlanks_of_opens {blanks text rest : List Char} (hblanks : AllBlank blanks)
    (h : ∃ c cs, text = c :: cs ∧ isBlank c = false) (hm : m.rest = blanks ++ (text ++ rest)) :
    (skipBlanks isBlank m).rest = text ++ rest := by
  rw [rest_skipBlanks, hm, hblanks.dropWhile_append, dropWhile_isBlank_of_opens h]

theorem yields_skipped : modelGrammar.Yields s .blank m (some (skipBlanks isBlank m, [])) := .blank

/-- Items with blanks before each are read one after the other. `T` is the text of the items that
are left, and of what follows. -/
theorem yields_spacedStar {β : Type} {X : Pattern Rule} {T : List β → List Char} {Q : β → Prop}
    {P : β → List (Token Rule) → Prop} (hblank : ∀ bs, (T bs).dropWhile isBlank = T bs)
    (step : ∀ b bs m, Q b → (∀ b' ∈ bs, Q b') → m.rest = T (b :: bs) →
      ∃ n ts, modelGrammar.Yields false X m (some (n, ts)) ∧
        n.rest.dropWhile isBlank = T bs ∧ P b ts)
    (stop : ∀ m, m.rest = T [] → modelGrammar.Yields false X m none) {bs : List β}
    (hbs : ∀ b ∈ bs, Q b) {m : Mark}
    (hm : m.rest = T bs) :
    ∃ n tss, modelGrammar.Yields false (.spacedStar X) m (some (n, tss.flatten)) ∧
      n.rest.dropWhile isBlank = T [] ∧ List.Forall₂ P bs tss := by
  have hstar (bs : List β) (hbs : ∀ b ∈ bs, Q b) : ∀ {m : Mark}, m.rest.dropWhile isBlank = T bs →
      ∃ n tss, modelGrammar.Yields false (.star (.seq .blank X)) m (some (n, tss.flatten)) ∧
        n.rest.dropWhile isBlank = T [] ∧ List.Forall₂ P bs tss := by
    induction bs with
    | nil =>
      intro m hm
      exact ⟨m, [], .star_done (.seq yields_skipped (stop _ hm)), hm, .nil⟩
    | cons b bs ih =>
      rw [List.forall_mem_cons] at hbs
      intro m hm
      obtain ⟨k, ts, hX, hk, hP⟩ := step b bs _ hbs.1 hbs.2 ((rest_skipBlanks m).trans hm)
      obtain ⟨n, tss, hrest, hn, hPs⟩ := ih hbs.2 hk
      exact ⟨n, ts :: tss, .star_more (.seq yields_skipped hX) hrest, hn, .cons hP hPs⟩
  cases bs with
  | nil => exact ⟨m, [], .opt_none (.seq_not (stop m hm)), by rw [hm, hblank], .nil⟩
  | cons b bs =>
    rw [List.forall_mem_cons] at hbs
    obtain ⟨k, ts, hX, hk, hP⟩ := step b bs m hbs.1 hbs.2 hm
    obtain ⟨n, tss, hrest, hn, hPs⟩ := hstar bs hbs.2 hk
    exact ⟨n, ts :: tss, .opt_some (.seq hX hrest), hn, .cons hP hPs⟩

theorem forall₂_flatten {β γ : Type} {R : β → γ → Prop} {bs : List β} {tss : List (List γ)}
    (h : List.Forall₂ (fun b ts => ∃ t, ts = [t] ∧ R b t) bs tss) :
    List.Forall₂ R bs tss.flatten := by
  induction h with
  | nil => exact .nil
  | cons h _ ih =>
    obtain ⟨t, rfl, ht⟩ := h
    exact .cons ht ih

theorem intercalate_cons {β : Type} (sep a : List β) (l : List (List β)) :
    sep.intercalate (a :: l) = a ++ l.flatMap (sep ++ ·) := by
  induction l generalizing a with
  | nil => simp [List.intercalate]
  | cons b l ih =>
    simp only [List.intercalate_cons_cons, ih b, List.flatMap_cons, List.append_assoc]

end

/-! ### Levels -/

theorem yields_var_none {m : Mark}
    (h : ∀ c ∈ m.rest.head?, isIdentifierStart c = false ∧ c ≠ '\'') :
    modelGrammar.Yields false (.rule .var) m none :=
  .rule_not (.alt_second (yields_identifier_none fun c hc => (h c hc).1)
    (.rule_not (Grammar.yields_tight_none (Grammar.yields_exactly_none fun c hc => (h c hc).2))))

theorem yields_call_none_of_head {m : Mark} (h : ∀ c ∈ m.rest.head?, isIdentifierStart c = false) :
    modelGrammar.Yields false (.rule .call) m none :=
  .rule_not (.seq_not (yields_identifier_none h))

namespace Expr.ReadsAs

variable {α : Type} [Scalar α] [Numeral α] {text : List Char} {e : Expr α}

/-- No primary begins with a minus, so that a minus is always a sign. -/
theorem yields_minus_none (h : ReadsAs .primary text e) {m : Mark} {rest : List Char}
    (hm : m.rest = text ++ rest) : modelGrammar.Yields false (.exactly '-') m none := by
  obtain ⟨d, ds, rfl, -⟩ := h.opens
  refine Grammar.yields_exactly_none (Mark.forall_head hm ?_)
  rintro rfl
  have hhead {P : Char → Prop} (h : P '-') : ∀ c ∈ (Mark.start ('-' :: ds)).rest.head?, P c :=
    Mark.forall_head rfl h
  obtain ⟨n, t, ht, -⟩ := h.reads (m := .start _) (List.append_nil _).symm .nil
  have hnone : modelGrammar.Yields false (.rule .primary) (.start ('-' :: ds)) none :=
    .rule_not (.alt_second (yields_number_none (hhead rfl))
      (.alt_second (yields_call_none_of_head (hhead rfl))
      (.alt_second (yields_var_none (hhead (by decide)))
        (.seq_not (Grammar.yields_exactly_none (hhead (by decide)))))))
  cases ht.unique hnone

theorem unary (h : ReadsAs .primary text e) : ReadsAs .unary text e := by
  refine ⟨h.opens, fun {m rest} hm hstops => ?_⟩
  obtain ⟨n, t, ht, hn, hread⟩ := h.reads hm (hstops.mono (by simp [continuing]))
  have hcaret : modelGrammar.Yields false (.exactly '^') (skipBlanks isBlank n) none := by
    refine Grammar.yields_exactly_none fun c hc => ?_
    rw [rest_skipBlanks, hn] at hc
    rintro rfl
    exact hstops.next _ hc (by simp [continuing])
  have hpower : modelGrammar.Yields false (.rule .power) m
      (some (skipBlanks isBlank n, [.node .power m (skipBlanks isBlank n) [t]])) :=
    .rule (.seq ht (.seq yields_skipped (.opt_none (.seq_not hcaret))))
  refine ⟨_, _, .rule (.alt_second (.seq_not (.rule_not (h.yields_minus_none hm))) hpower), ?_,
    fun source => ?_⟩
  · rw [rest_skipBlanks, hn, List.dropWhile_idempotent]
  · rw [ofToken, ofToken, hread]

theorem negated {blanks : List Char} (hblanks : AllBlank blanks) (h : ReadsAs .unary text e) :
    ReadsAs .unary ('-' :: (blanks ++ text)) e.negated := by
  refine ⟨⟨_, _, rfl, rfl⟩, fun {m rest} hm hstops => ?_⟩
  obtain ⟨k, hk, hminus⟩ := Grammar.yields_exactly (g := modelGrammar) (s := false) hm
  have hk : k.rest = blanks ++ (text ++ rest) := (hk.rest_eq hm).trans (List.append_assoc ..)
  obtain ⟨n, t, ht, hn, hread⟩ := h.reads (rest_skipBlanks_of_opens hblanks h.opens hk) hstops
  refine ⟨n, _, .rule (.alt_first (.seq (.rule hminus) (.seq yields_skipped ht))), hn,
    fun source => ?_⟩
  show ofToken source (.node .unary m n [_, t]) = _
  rw [ofToken, hread]
  rfl

theorem power {text' before after : List Char} {e' : Expr α} (h : ReadsAs .primary text e)
    (hbefore : AllBlank before) (hafter : AllBlank after) (h' : ReadsAs .unary text' e') :
    ReadsAs .unary (text ++ (before ++ '^' :: (after ++ text'))) (binary .power e e') := by
  obtain ⟨c, cs, hcs, hc⟩ := h.opens
  refine ⟨⟨c, cs ++ (before ++ '^' :: (after ++ text')), by rw [hcs, List.cons_append], hc⟩,
    fun {m rest} hm hstops => ?_⟩
  have hm : m.rest = text ++ (before ++ '^' :: (after ++ (text' ++ rest))) := by simpa using hm
  obtain ⟨k, t, ht, hk, hread⟩ := h.reads hm (.blanks hbefore (.cons (by decide) (by decide)))
  have hcaret : (skipBlanks isBlank k).rest = '^' :: (after ++ (text' ++ rest)) := by
    rw [rest_skipBlanks, hk, hbefore.dropWhile_append]
    rfl
  obtain ⟨l, hl, hyields⟩ := Grammar.yields_exactly (g := modelGrammar) (s := false) hcaret
  obtain ⟨n, t', ht', hn, hread'⟩ :=
    h'.reads (rest_skipBlanks_of_opens hafter h'.opens (hl.rest_eq hcaret)) hstops
  have hpower : modelGrammar.Yields false (.rule .power) m (some (n, [.node .power m n [t, t']])) :=
    .rule (.seq ht (.seq yields_skipped (.opt_some (.seq hyields (.seq yields_skipped ht')))))
  refine ⟨n, _, .rule (.alt_second (.seq_not (.rule_not (h.yields_minus_none hm))) hpower), hn,
    fun source => ?_⟩
  rw [ofToken, ofToken, hread, hread']
  rfl

end Expr.ReadsAs

/-- The text reads as the expression, and may have blanks at its ends. -/
def Expr.ReadsPadded {α : Type} [Scalar α] [Numeral α] (text : List Char) (e : Expr α) : Prop :=
  ∃ before inner after, AllBlank before ∧ AllBlank after ∧ text = before ++ (inner ++ after) ∧
    ReadsAs .expression inner e

namespace Expr

variable {α : Type} [Scalar α] [Numeral α] {text : List Char} {e : Expr α}

theorem ReadsAs.padded (h : ReadsAs .expression text e) : ReadsPadded text e :=
  ⟨[], text, [], .nil, .nil, (List.append_nil text).symm, h⟩

theorem ReadsPadded.yields (h : ReadsPadded text e) {m : Mark} {rest : List Char}
    (hm : m.rest = text ++ rest)
    (hstops : Stops (continuing .expression) rest) :
    ∃ n t, modelGrammar.Yields false (.rule .expression) (skipBlanks isBlank m) (some (n, [t])) ∧
      n.rest.dropWhile isBlank = rest.dropWhile isBlank ∧ ∀ source, ofToken source t = .ok e := by
  obtain ⟨before, inner, after, hbefore, hafter, rfl, h⟩ := h
  have hm : m.rest = before ++ (inner ++ (after ++ rest)) := by simpa using hm
  obtain ⟨n, t, ht, hn, hread⟩ :=
    h.reads (rest_skipBlanks_of_opens hbefore h.opens hm) (hstops.blanks hafter)
  exact ⟨n, t, ht, hn.trans (hafter.dropWhile_append rest), hread⟩

/-- An expression in parentheses. -/
theorem ReadsPadded.parens (h : ReadsPadded text e) :
    ReadsAs .primary ('(' :: (text ++ [')'])) e := by
  refine ⟨⟨_, _, rfl, rfl⟩, fun {m rest} hm hstops => ?_⟩
  have hm : m.rest = '(' :: (text ++ ')' :: rest) := by simpa using hm
  have hhead {P : Char → Prop} (h : P '(') : ∀ c ∈ m.rest.head?, P c := Mark.forall_head hm h
  obtain ⟨k, hk, hopen⟩ := Grammar.yields_exactly (g := modelGrammar) (s := false) hm
  obtain ⟨l, t, ht, hl, hread⟩ := h.yields (hk.rest_eq hm) (.cons (by decide) (by decide))
  have hl : (skipBlanks isBlank l).rest = ')' :: rest := hl
  obtain ⟨n, hn, hclose⟩ := Grammar.yields_exactly (g := modelGrammar) (s := false) hl
  refine ⟨n, _, .rule (.alt_second (yields_number_none (hhead rfl)) (.alt_second
    (yields_call_none_of_head (hhead rfl)) (.alt_second (yields_var_none (hhead (by decide)))
      (.seq hopen (.seq yields_skipped (.seq ht (.seq yields_skipped hclose))))))), ?_,
      fun source => ?_⟩
  · rw [hn.rest_eq hl]
  · show ofToken source (.node .primary m n [t]) = _
    rw [ofToken, hread]

end Expr

/-! ### Chains -/

section
variable {α : Type}

def symbolOf : Char → Symbol α
  | '+' => .add
  | '-' => .sub
  | '*' => .mul
  | _ => .div

/-- An operator of a chain and the operand after it, with the blanks on both sides of the
operator. -/
structure Link (α : Type) where
  before : List Char
  operator : Char
  after : List Char
  text : List Char
  operand : Expr α

namespace Link

def chars (l : Link α) : List Char := l.before ++ l.operator :: (l.after ++ l.text)

/-- The operator is one of these, with nothing but blanks around it. -/
structure Separates (operators : List Char) (l : Link α) : Prop where
  operator : l.operator ∈ operators
  before : AllBlank l.before
  after : AllBlank l.after

end Link

/-- A chain of operands that are joined from the left. -/
def Expr.chain (join : Expr α → Symbol α → Expr α → Expr α) (e : Expr α) (links : List (Link α)) :
    Expr α :=
  links.foldl (fun e l => join e (symbolOf l.operator) l.operand) e

theorem Expr.operatorOf_eq {t : Token Rule} {c : Char} (h : t.chars = [c]) :
    (operatorOf t : Symbol α) = symbolOf c := by
  unfold operatorOf symbolOf
  rw [h]
  split <;> split <;> simp_all

end

/-- `parent` is a chain of `sub` with the operators `a` and `b` of the rule `op`. -/
structure ChainLevel (parent op sub : Rule) (a b : Char) : Prop where
  body : parent.body = .spaced (.rule sub) [.spacedStar (.spaced (.rule op) [.rule sub])]
  isAtomic : parent.isAtomic = false
  body_op : op.body = .firstOf (.exactly a) [.exactly b]
  isAtomic_op : op.isAtomic = false
  subset : continuing sub ⊆ continuing parent
  operators : ∀ c ∈ [a, b], c ∈ closers ∧ c ∈ continuing parent ∧ c ∉ continuing sub
  ofToken {α : Type} [Scalar α] [Numeral α] (source : List Char) (m n : Mark) (t : Token Rule)
    (ts : List (Token Rule)) :
    Expr.ofToken (α := α) source (.node parent m n (t :: ts)) =
      (do Expr.chainOf source (← Expr.ofToken source t) ts)

theorem sums : ChainLevel .expression .addOp .term '+' '-' where
  body := rfl
  isAtomic := rfl
  body_op := rfl
  isAtomic_op := rfl
  subset := by decide
  operators := by simp [closers, continuing]
  ofToken source m n t ts := by rw [Expr.ofToken]

theorem products : ChainLevel .term .mulOp .unary '*' '/' where
  body := rfl
  isAtomic := rfl
  body_op := rfl
  isAtomic_op := rfl
  subset := by decide
  operators := by simp [closers, continuing]
  ofToken source m n t ts := by rw [Expr.ofToken]

namespace ChainLevel

variable {parent op sub : Rule} {a b c : Char} {m : Mark} {rest : List Char}

theorem yields_op (h : ChainLevel parent op sub a b) (hc : c ∈ [a, b]) (hm : m.rest = c :: rest) :
    ∃ n, m.Spans [c] n ∧ modelGrammar.Yields false (.rule op) m (some (n, [.node op m n []])) := by
  obtain ⟨n, hn, hchar⟩ := Grammar.yields_exactly (g := modelGrammar) (s := false) hm
  have hbody : modelGrammar.Yields (false || op.isAtomic) op.body m (some (n, [])) := by
    rw [h.isAtomic_op, h.body_op]
    by_cases hca : c = a
    · subst hca
      exact .alt_first hchar
    · obtain rfl : c = b := (List.mem_pair.1 hc).resolve_left hca
      exact .alt_second (Grammar.yields_exactly_none (Mark.forall_head hm hca)) hchar
  exact ⟨n, hn, .rule hbody⟩

theorem yields_op_none (h : ChainLevel parent op sub a b)
    (hm : ∀ c ∈ m.rest.head?, c ∉ continuing parent) :
    modelGrammar.Yields false (.rule op) m none := by
  have hbody : modelGrammar.Yields (false || op.isAtomic) op.body m none := by
    rw [h.isAtomic_op, h.body_op]
    refine .alt_second (Grammar.yields_exactly_none fun d hd => ?_)
      (Grammar.yields_exactly_none fun d hd => ?_) <;>
      rintro rfl
    · exact hm _ hd (h.operators d (by simp)).2.1
    · exact hm _ hd (h.operators d (by simp)).2.1
  exact .rule_not hbody

theorem of_yields_op (h : ChainLevel parent op sub a b) {n : Mark} {ts : List (Token Rule)}
    (hbody : modelGrammar.Yields op.isAtomic op.body m (some (n, ts))) :
    ∃ c ∈ [a, b], m.Spans [c] n := by
  rw [h.body_op] at hbody
  rcases Grammar.yields_alt_some hbody with hchar | hchar
  · exact ⟨a, by simp, (Grammar.yields_exactly_some hchar).1⟩
  · exact ⟨b, by simp, (Grammar.yields_exactly_some hchar).1⟩

section
variable {α : Type} {links : List (Link α)} {l : Link α}

theorem stops_links (h : ChainLevel parent op sub a b) (hlinks : ∀ l ∈ links, l.Separates [a, b])
    (hstops : Stops (continuing parent) rest) :
    Stops (continuing sub) (links.flatMap Link.chars ++ rest) := by
  cases links with
  | nil => exact hstops.mono h.subset
  | cons l links =>
    rw [List.forall_mem_cons] at hlinks
    obtain ⟨hcloser, -, hnot⟩ := h.operators _ hlinks.1.operator
    rw [List.flatMap_cons, Link.chars, List.append_assoc, List.append_assoc]
    exact .blanks hlinks.1.before (.cons hcloser hnot)

theorem dropWhile_links (h : ChainLevel parent op sub a b) (hl : l.Separates [a, b]) :
    ((l :: links).flatMap Link.chars ++ rest).dropWhile isBlank =
      l.operator :: (l.after ++ (l.text ++ (links.flatMap Link.chars ++ rest))) := by
  have hblank := isBlank_of_mem_closers (h.operators _ hl.operator).1
  rw [List.flatMap_cons, Link.chars]
  simp only [List.append_assoc, List.cons_append]
  rw [hl.before.dropWhile_append, List.dropWhile_cons_of_neg (by simp [hblank])]

variable [Scalar α] [Numeral α] {text : List Char} {e : Expr α}

/-- What the tokens of an operator and its operand stand for. -/
def IsOperand (l : Link α) (ts : List (Token Rule)) : Prop :=
  ∃ o t, ts = [o, t] ∧ (Expr.operatorOf o : Symbol α) = symbolOf l.operator ∧
    ∀ source, Expr.ofToken source t = .ok l.operand

theorem chainOf_eq_chain {source : List Char} {tss : List (List (Token Rule))}
    (h : List.Forall₂ IsOperand links tss) :
    Expr.chainOf source e tss.flatten = .ok (e.chain Expr.appendOperand links) := by
  induction h generalizing e with
  | nil => rfl
  | cons h _ ih =>
    obtain ⟨o, t, rfl, ho, ht⟩ := h
    show Expr.chainOf source e (o :: t :: _) = _
    rw [Expr.chainOf, ht source, ho]
    exact ih

theorem reads_operand (h : ChainLevel parent op sub a b) (hl : l.Separates [a, b])
    (hlinks : ∀ l ∈ links, l.Separates [a, b]) (hstops : Stops (continuing parent) rest)
    (hread : Expr.ReadsAs sub l.text l.operand)
    (hm : m.rest = ((l :: links).flatMap Link.chars ++ rest).dropWhile isBlank) :
    ∃ n ts, modelGrammar.Yields false (.spaced (.rule op) [.rule sub]) m (some (n, ts)) ∧
      n.rest.dropWhile isBlank = (links.flatMap Link.chars ++ rest).dropWhile isBlank ∧
      IsOperand l ts := by
  rw [h.dropWhile_links hl] at hm
  obtain ⟨k, hk, hop⟩ := h.yields_op hl.operator hm
  obtain ⟨n, t, ht, hn, hread⟩ :=
    hread.reads (rest_skipBlanks_of_opens hl.after hread.opens (hk.rest_eq hm))
    (h.stops_links hlinks hstops)
  exact ⟨n, _, .seq hop (.seq yields_skipped ht), hn, _, t, rfl,
    Expr.operatorOf_eq hk.until_eq, hread⟩

/-- A chain is read as its operands are. -/
theorem reads (h : ChainLevel parent op sub a b) (hfirst : Expr.ReadsAs sub text e)
    (hlinks : ∀ l ∈ links, l.Separates [a, b] ∧ Expr.ReadsAs sub l.text l.operand) :
    Expr.ReadsAs parent (text ++ links.flatMap Link.chars) (e.chain Expr.appendOperand links) := by
  obtain ⟨d, ds, hds, hd⟩ := hfirst.opens
  refine ⟨⟨d, _, by rw [hds, List.cons_append], hd⟩, fun {m rest} hm hstops => ?_⟩
  rw [List.append_assoc] at hm
  obtain ⟨k, t, ht, hk, hread⟩ :=
    hfirst.reads hm (h.stops_links (fun l hl => (hlinks l hl).1) hstops)
  have hstop (m : Mark)
      (hm : m.rest = (([] : List (Link α)).flatMap Link.chars ++ rest).dropWhile isBlank) :
      modelGrammar.Yields false (.spaced (.rule op) [.rule sub]) m none := by
    refine .seq_not (h.yields_op_none fun c hc => hstops.next c ?_)
    rwa [hm] at hc
  obtain ⟨n, tss, htss, hn, hoperands⟩ := yields_spacedStar
    (T := fun links : List (Link α) => (links.flatMap Link.chars ++ rest).dropWhile isBlank)
    (fun _ => List.dropWhile_idempotent ..)
    (fun l links m hl hlinks hm =>
      h.reads_operand hl.1 (fun l hl => (hlinks l hl).1) hstops hl.2 hm) hstop hlinks
    ((rest_skipBlanks k).trans hk)
  have hbody : modelGrammar.Yields (false || parent.isAtomic) parent.body m
      (some (n, t :: tss.flatten)) := by
    rw [h.isAtomic, h.body]
    exact .seq ht (.seq yields_skipped htss)
  refine ⟨n, _, .rule hbody, hn, fun source => ?_⟩
  show Expr.ofToken source (.node parent m n (t :: tss.flatten)) = _
  rw [h.ofToken, hread]
  exact chainOf_eq_chain hoperands

end

end ChainLevel

namespace Expr.ReadsAs

variable {α : Type} [Scalar α] [Numeral α] {text : List Char} {e : Expr α}

theorem term (h : ReadsAs .unary text e) : ReadsAs .term text e := by
  simpa [chain] using products.reads h (List.forall_mem_nil _)

theorem ofTerm (h : ReadsAs .term text e) : ReadsAs .expression text e := by
  simpa [chain] using sums.reads h (List.forall_mem_nil _)

theorem expression (h : ReadsAs .unary text e) : ReadsAs .expression text e := h.term.ofTerm

/-! ### Primaries -/

theorem number {v : α} (h : IsNumeral text) (hv : numeral? text = some v) :
    ReadsAs .primary text (constant v) := by
  obtain ⟨c, cs, hcs, hc⟩ := h.head
  refine ⟨⟨c, cs, hcs, ?_⟩, fun {m rest} hm hstops => ?_⟩
  · rw [Bool.eq_false_iff]
    intro hblank
    simp only [isBlank, Bool.or_eq_true, beq_iff_eq] at hblank
    rcases hblank with ((rfl | rfl) | rfl) | rfl <;> cases hc
  · obtain ⟨n, hn, hnumber⟩ := yields_number (s := false) h hm hstops.number
    refine ⟨n, _, .rule (.alt_first hnumber), by rw [hn.rest_eq hm], fun source => ?_⟩
    show ofToken source (.node .primary m n [.node .number m n []]) = _
    rw [ofToken, ofToken]
    simp only [hn.until_eq, hv]

theorem yields_call_none {m n : Mark} {ts : List (Token Rule)}
    (h : modelGrammar.Yields false (.rule .identifier) m (some (n, ts)))
    (hn : ∀ c ∈ (n.rest.dropWhile isBlank).head?, c ≠ '(') :
    modelGrammar.Yields false (.rule .call) m none :=
  .rule_not (.seq h (.seq yields_skipped (.seq_not (Grammar.yields_exactly_none hn))))

theorem ofTokenName {name : String} {c : Char} {cs : List Char} (hdigit : c.isDigit = false)
    (hblank : isBlank c = false)
    (h : ∀ {m : Mark} {rest : List Char},
      m.rest = c :: cs ++ rest → Stops (continuing .primary) rest →
      modelGrammar.Yields false (.rule .call) m none ∧ ∃ n ts, m.Spans (c :: cs) n ∧
        modelGrammar.Yields false Rule.var.body m (some (n, ts)) ∧ ∀ r k l,
        nameOf? (.node r k l ts) = some name) :
    ReadsAs .primary (c :: cs) (ofVariable name : Expr α) := by
  refine ⟨⟨c, cs, rfl, hblank⟩, fun {m rest} hm hstops => ?_⟩
  have hnumber : modelGrammar.Yields false (.rule .number) m none :=
    yields_number_none (Mark.forall_head hm hdigit)
  obtain ⟨hcall, n, ts, hn, hname, hread⟩ := h hm hstops
  refine ⟨n, _, .rule (.alt_second hnumber (.alt_second hcall (.alt_first (.rule hname)))),
    by rw [hn.rest_eq hm], fun source => ?_⟩
  show ofToken source (.node .primary m n [.node .var m n ts]) = _
  rw [ofToken, ofToken, hread]

theorem identifier {name : String} (hname : isIdentifier name = true) :
    ReadsAs .primary name.toList (ofVariable name : Expr α) := by
  obtain ⟨c, cs, hcs, hc⟩ := head_of_isIdentifier hname
  rw [hcs]
  refine ofTokenName (isDigit_of_isIdentifierStart hc) (isBlank_of_isIdentifierStart hc)
    fun {m rest} hm hstops => ?_
  rw [← hcs] at hm ⊢
  obtain ⟨n, hn, hyields⟩ := yields_identifier hname hm hstops.identifier
  refine ⟨yields_call_none hyields fun c hc => ?_, n, _, hn, .alt_first hyields, fun r k l => ?_⟩
  · rw [hn.rest_eq hm] at hc
    simpa [continuing] using hstops.next c hc
  · show some (String.ofList (m.until n)) = _
    rw [hn.until_eq, String.ofList_toList]

theorem quoted {name : List Char} (hne : name ≠ []) (hquote : '\'' ∉ name) :
    ReadsAs .primary ('\'' :: (name ++ ['\''])) (ofVariable (String.ofList name) : Expr α) := by
  refine ofTokenName rfl rfl fun {m rest} hm hstops => ?_
  have hhead : ∀ c ∈ m.rest.head?, isIdentifierStart c = false := Mark.forall_head hm rfl
  obtain ⟨k, l, n, hname, hn, hyields⟩ := yields_quoted false hne hquote (by simpa using hm)
  refine ⟨yields_call_none_of_head hhead, n, _, hn,
    .alt_second (yields_identifier_none hhead) hyields, fun r k' l' => ?_⟩
  show some (String.ofList (k.until l)) = _
  rw [hname.until_eq]

theorem ofName {name : String} (hne : name.toList ≠ []) (hquote : '\'' ∉ name.toList) :
    ReadsAs .primary (nameText name).toList (ofVariable name : Expr α) := by
  rw [nameText]
  split
  · exact identifier ‹_›
  · simpa [String.toList_append] using quoted (α := α) hne hquote

/-! ### Calls -/

def argumentsText (items : List (List Char × Expr α)) :
    List Char := items.flatMap fun p => ',' :: p.1

theorem ofTokens_eq {source : List Char} {items : List (List Char × Expr α)}
    {ts : List (Token Rule)}
    (h : List.Forall₂ (fun p t => ∀ source, ofToken source t = .ok p.2) items ts) :
    ofTokens source ts = .ok (items.map (·.2)) := by
  induction h with
  | nil => rfl
  | cons ht _ ih =>
    rw [ofTokens, ht source]
    exact congrArg (fun x => x >>= fun es => pure (_ :: es)) ih

omit [Scalar α] [Numeral α] in
theorem stops_argumentsText (items : List (List Char × Expr α)) (rest : List Char) :
    Stops (continuing .expression) (argumentsText items ++ ')' :: rest) := by
  cases items with
  | nil => exact .cons (by decide) (by decide)
  | cons p items => exact .cons (by decide) (by decide)

omit [Scalar α] [Numeral α] in
theorem dropWhile_argumentsText (items : List (List Char × Expr α)) (rest : List Char) :
    (argumentsText items ++ ')' :: rest).dropWhile isBlank =
      argumentsText items ++ ')' :: rest := by
  cases items <;> rfl

theorem reads_argument {m : Mark} {rest : List Char} {p : List Char × Expr α}
    (items : List (List Char × Expr α))
    (hp : ReadsPadded p.1 p.2) (hm : m.rest = argumentsText (p :: items) ++ ')' :: rest) :
    ∃ n ts, modelGrammar.Yields false (.spaced (.exactly ',') [.rule .expression]) m
      (some (n, ts)) ∧
      n.rest.dropWhile isBlank = argumentsText items ++ ')' :: rest ∧
      ∃ t, ts = [t] ∧ ∀ source, ofToken source t = .ok p.2 := by
  have hm : m.rest = ',' :: (p.1 ++ (argumentsText items ++ ')' :: rest)) := by
    rw [hm, argumentsText, List.flatMap_cons]
    simp [argumentsText]
  obtain ⟨k, hk, hcomma⟩ := Grammar.yields_exactly (g := modelGrammar) (s := false) hm
  obtain ⟨n, t, ht, hn, hread⟩ := hp.yields (hk.rest_eq hm) (stops_argumentsText items rest)
  exact ⟨n, _, .seq hcomma (.seq yields_skipped ht),
    by rw [hn, dropWhile_argumentsText], t, rfl, hread⟩

theorem call {name : String} {blanks : List Char} {result : Expr α}
    (hname : isIdentifier name = true)
    (hblanks : AllBlank blanks) (h : ReadsPadded text e) {items : List (List Char × Expr α)}
    (hitems : ∀ p ∈ items, ReadsPadded p.1 p.2)
    (happly : ∀ source t, applyFunction source t name (e :: items.map (·.2)) = .ok result) :
    ReadsAs .primary
      (name.toList ++ (blanks ++ '(' :: (text ++ (argumentsText items ++ [')'])))) result := by
  obtain ⟨c, cs, hcs, hc⟩ := head_of_isIdentifier hname
  refine ⟨⟨c, _, by rw [hcs, List.cons_append], isBlank_of_isIdentifierStart hc⟩,
    fun {m rest} hm hstops => ?_⟩
  have hm : m.rest = name.toList ++ (blanks ++ '(' ::
      (text ++ (argumentsText items ++ ')' :: rest))) := by simpa using hm
  -- a name is no number, and ends before the bracket
  have hnumber : modelGrammar.Yields false (.rule .number) m none :=
    yields_number_none (Mark.forall_head (hcs ▸ hm) (isDigit_of_isIdentifierStart hc))
  have hhead : ∀ c ∈ (blanks ++ '(' :: (text ++ (argumentsText items ++ ')' :: rest))).head?,
      isIdentifierChar c = false := by
    cases blanks with
    | nil => simp [isIdentifierChar]
    | cons b blanks =>
      intro c hc
      cases hc
      exact isIdentifierChar_of_isBlank (hblanks _ (by simp))
  obtain ⟨k, hk, hidentifier⟩ := yields_identifier hname hm hhead
  have hopen : (skipBlanks isBlank k).rest =
      '(' :: (text ++ (argumentsText items ++ ')' :: rest)) := by
    rw [rest_skipBlanks, hk.rest_eq hm, hblanks.dropWhile_append]
    rfl
  obtain ⟨l, hl, hparen⟩ := Grammar.yields_exactly (g := modelGrammar) (s := false) hopen
  obtain ⟨q, t, ht, hq, hread⟩ := h.yields (hl.rest_eq hopen) (stops_argumentsText items rest)
  have hstop (m : Mark)
      (hm : m.rest = argumentsText ([] : List (List Char × Expr α)) ++ ')' :: rest) :
      modelGrammar.Yields false (.spaced (.exactly ',') [.rule .expression]) m none :=
    .seq_not (Grammar.yields_exactly_none (Mark.forall_head hm (by decide)))
  have htail : (skipBlanks isBlank q).rest = argumentsText items ++ ')' :: rest := by
    rw [rest_skipBlanks, hq, dropWhile_argumentsText]
  -- the other operands, each behind a comma
  obtain ⟨n, tss, htss, hn, harguments⟩ :=
    yields_spacedStar (T := fun items => argumentsText items ++ ')' :: rest)
    (fun items => dropWhile_argumentsText items rest)
      (fun p items m hp _ hm => reads_argument items hp hm) hstop hitems
    htail
  have hclose : (skipBlanks isBlank n).rest = ')' :: rest := hn
  obtain ⟨z, hz, hend⟩ := Grammar.yields_exactly (g := modelGrammar) (s := false) hclose
  have hcall : modelGrammar.Yields false (.rule .call) m
      (some (z, [.node .call m z (.node .identifier m k [] :: t :: (tss.flatten ++ []))])) :=
    .rule (.seq hidentifier
      (.seq yields_skipped (.seq hparen (.seq yields_skipped (.seq ht (.seq yields_skipped
      (.seq htss (.seq yields_skipped hend))))))))
  refine ⟨z, _, .rule (.alt_second hnumber (.alt_first hcall)),
    by rw [hz.rest_eq hclose], fun source => ?_⟩
  show ofToken source (.node .primary m z [_]) = _
  rw [ofToken, ofToken, List.append_nil, ofTokens, hread, ofTokens_eq (forall₂_flatten harguments)]
  show applyFunction source _ (String.ofList (m.until k)) _ = _
  rw [hk.until_eq, String.ofList_toList]
  exact happly source _

end Expr.ReadsAs

end ModalBounds
