import ModalBounds.Proofs.Syntax.RoundTrip

/-!
# The grammar of expressions

`Spells` says which texts spell an expression, without an order of trying and without places: sums
of products of powers, a minus that binds looser than a power, and blanks between any two parts.
What a minus and an operator make of their operands is left to an `Assembly`. A source is read as an
expression exactly if it spells it with the assembly that folds, and the limits allow both
(`read_eq_ok_iff_spells`).
-/

namespace ModalBounds.Expr

section
variable {α : Type}

/-- What a minus makes of its operand, and an operator of the operands on its two sides. -/
structure Assembly (α : Type) where
  negate : Expr α → Expr α
  join : Expr α → Symbol α → Expr α → Expr α

namespace Assembly

/-- A minus becomes part of a constant, and a chain of one operator becomes one node. -/
def folding [Neg α] [BEq α] : Assembly α := ⟨Expr.negated, Expr.appendOperand⟩

/-- Every minus becomes a node with one operand, and every operator one with two. -/
def literal : Assembly α := ⟨Expr.unary .sub, fun a s b => Expr.binary s a b⟩

end Assembly

variable [Scalar α] [Numeral α]

/-- A text of a rule spells an expression. Operators of a chain join from the left, and a power is
one of a primary, so that powers join from the right and a minus before one is a minus of the
power. -/
inductive Spells (b : Assembly α) : Rule → List Char → Expr α → Prop
  | number {text : List Char} {v : α} : IsNumeral text → numeral? text = some v →
      Spells b .primary text (constant v)
  | identifier {name : String} : isIdentifier name = true →
    Spells b .primary name.toList (ofVariable name)
  | quoted {name : String} : name.toList ≠ [] → '\'' ∉ name.toList →
      Spells b .primary ('\'' :: (name.toList ++ ['\''])) (ofVariable name)
  | call {name : String} {blanks : List Char} {args : List (List Char × Expr α)} {s : Symbol α}
    {arity : Arity} :
      isIdentifier name = true → AllBlank blanks → args ≠ [] →
      (∀ p ∈ args, Spells b .expressionFile p.1 p.2) →
      callSymbol? name = some (s, arity) → arity.accepts args.length = true →
      Spells b .primary
        (name.toList ++ (blanks ++ '(' :: ([','].intercalate (args.map (·.1)) ++ [')'])))
        (node s (args.map (·.2)))
  | parens {text : List Char} {e : Expr α} : Spells b .expressionFile text e →
      Spells b .primary ('(' :: (text ++ [')'])) e
  | primary {text : List Char} {e : Expr α} : Spells b .primary text e → Spells b .unary text e
  | power {text text' before after : List Char} {e e' : Expr α} : Spells b .primary text e →
    AllBlank before →
      AllBlank after → Spells b .unary text' e' →
      Spells b .unary (text ++ (before ++ '^' :: (after ++ text'))) (binary .power e e')
  | minus {blanks text : List Char} {e : Expr α} : AllBlank blanks → Spells b .unary text e →
      Spells b .unary ('-' :: (blanks ++ text)) (b.negate e)
  | product {text : List Char} {e : Expr α} {links : List (Link α)} : Spells b .unary text e →
      (∀ l ∈ links, l.Separates ['*', '/']) → (∀ l ∈ links, Spells b .unary l.text l.operand) →
      Spells b .term (text ++ links.flatMap Link.chars) (e.chain b.join links)
  | sum {text : List Char} {e : Expr α} {links : List (Link α)} : Spells b .term text e →
      (∀ l ∈ links, l.Separates ['+', '-']) → (∀ l ∈ links, Spells b .term l.text l.operand) →
      Spells b .expression (text ++ links.flatMap Link.chars) (e.chain b.join links)
  | padded {before text after : List Char} {e : Expr α} : AllBlank before → AllBlank after →
      Spells b .expression text e → Spells b .expressionFile (before ++ (text ++ after)) e

theorem Spells.append_blanks {b : Assembly α} {text blanks : List Char} {e : Expr α}
    (h : Spells b .expressionFile text e) (hblanks : AllBlank blanks) :
    Spells b .expressionFile (text ++ blanks) e := by
  cases h with
  | padded hbefore hafter h =>
    rw [List.append_assoc, List.append_assoc]
    exact .padded hbefore (hafter.append hblanks) h

/-! ### What is spelled is read -/

/-- What spelling an expression comes to for the reader. -/
def ReadsAt : Rule → List Char → Expr α → Prop
  | .expressionFile => ReadsPadded
  | r => ReadsAs r

theorem readsAt_of_spells {r : Rule} {text : List Char} {e : Expr α}
    (h : Spells .folding r text e) : ReadsAt r text e := by
  induction h with
  | number h hv => exact ReadsAs.number h hv
  | identifier hname => exact ReadsAs.identifier hname
  | @quoted name hne hquote => simpa [ReadsAt] using ReadsAs.quoted (α := α) hne hquote
  | @call name blanks args s arity hname hblanks hne _ hcall harity ih =>
    obtain ⟨p, rest, rfl⟩ := List.exists_cons_of_ne_nil hne
    rw [List.forall_mem_cons] at ih
    have happly (source : List Char) (t : Token Rule) :
        applyFunction source t name ((p :: rest).map (·.2)) =
          .ok (node s ((p :: rest).map (·.2))) := by
      unfold applyFunction
      rw [hcall]
      show (if arity.accepts _ then _ else _) = _
      rw [List.length_map, if_pos harity]
    have htext : [','].intercalate ((p :: rest).map (·.1)) = p.1 ++ ReadsAs.argumentsText rest := by
      rw [List.map_cons, intercalate_cons, List.flatMap_map]
      rfl
    rw [htext, List.append_assoc]
    exact ReadsAs.call hname hblanks ih.1 ih.2 happly
  | parens _ ih => exact ReadsPadded.parens ih
  | primary _ ih => exact ReadsAs.unary ih
  | power _ hbefore hafter _ ih ih' => exact ReadsAs.power ih hbefore hafter ih'
  | minus hblanks _ ih => exact ReadsAs.negated hblanks ih
  | product _ hlinks _ ih ihs => exact products.reads ih fun l hl => ⟨hlinks l hl, ihs l hl⟩
  | sum _ hlinks _ ih ihs => exact sums.reads ih fun l hl => ⟨hlinks l hl, ihs l hl⟩
  | padded hbefore hafter _ ih => exact ⟨_, _, _, hbefore, hafter, rfl, ih⟩

/-- A whole text spells one expression. -/
theorem Spells.unique {text : List Char} {e e' : Expr α}
    (h : Spells .folding .expressionFile text e)
    (h' : Spells .folding .expressionFile text e') : e = e' := by
  -- The reader is a function, so both spellings are what it makes of the text.
  obtain ⟨file, t, hfile, ht, hread⟩ := ReadsPadded.file (readsAt_of_spells h)
  obtain ⟨file', t', hfile', ht', hread'⟩ := ReadsPadded.file (readsAt_of_spells h')
  obtain rfl := Except.ok.inj (hfile.symm.trans hfile')
  obtain rfl := Option.some.inj (ht.symm.trans ht')
  exact Except.ok.inj ((hread text).symm.trans (hread' text))

/-! ### What is read is spelled -/

/-- Between two places a text is spelled, and there may be blanks after it. -/
def Spelled (r : Rule) (m n : Mark) (e : Expr α) : Prop :=
  ∃ text blanks, m.Spans (text ++ blanks) n ∧ AllBlank blanks ∧ Spells .folding r text e

/-- The rule of the text that a token stands for. -/
def levelOf : Rule → Rule
  | .power => .unary
  | .call => .primary
  | .var => .primary
  | .number => .primary
  | r => r

/-- What tokens stand for is spelled where they are. -/
def AreSpelled (source : List Char) (ts : List (Token Rule)) : Prop :=
  ∀ t ∈ ts, ∀ e : Expr α, ofToken source t = .ok e → Spelled (levelOf t.rule) t.start t.stop e

variable {source : List Char} {r : Rule} {m n k : Mark} {e : Expr α} {ts : List (Token Rule)}

theorem Spelled.append_blanks {blanks : List Char} (h : Spelled r m k e) (hk : k.Spans blanks n)
    (hblanks : AllBlank blanks) : Spelled r m n e := by
  obtain ⟨text, blanks', hspans, hblanks', hspells⟩ := h
  exact ⟨text, blanks' ++ blanks, List.append_assoc .. ▸ hspans.trans hk,
    hblanks'.append hblanks, hspells⟩

theorem AreSpelled.of_yields (h : AreSpelled (α := α) source ts)
    (hyields : modelGrammar.Yields false (.rule r) m (some (n, ts))) : ∃ t, ts = [t] ∧
      ∀ e : Expr α, ofToken source t = .ok e → Spelled (levelOf r) m n e := by
  obtain ⟨us, -, rfl⟩ := Grammar.yields_token_some hyields
  exact ⟨_, rfl, fun e he => h _ (List.mem_singleton_self _) e he⟩

theorem AreSpelled.of_part {parent : Rule} (hts : AreSpelled (α := α) source ts)
    (hpart : modelGrammar.Yields false (.rule r) m (some (n, ts)))
    (hparent : ∀ t, ofToken (α := α) source (.node parent m n [t]) = ofToken source t)
    (h : ofToken source (.node parent m n ts) = .ok e) : Spelled (levelOf r) m n e := by
  obtain ⟨t, rfl, hspelled⟩ := hts.of_yields hpart
  exact hspelled e ((hparent t).symm.trans h)

theorem AreSpelled.append {us : List (Token Rule)} (h : AreSpelled (α := α) source (ts ++ us)) :
    AreSpelled (α := α) source ts ∧ AreSpelled (α := α) source us :=
  List.forall_mem_append.1 h

/-- The operators and operands that continue a chain. What is pending are the blanks after what
comes before. -/
theorem exists_links {parent op sub : Rule} {a b : Char} (hlevel : ChainLevel parent op sub a b)
    (hsub : levelOf sub = sub)
    (h : modelGrammar.Repeats false (.spaced (.rule op) [.rule sub]) m n ts)
    (hts : AreSpelled (α := α) source ts) {pending : List Char} (hpending : AllBlank pending)
    {first : Expr α}
    (he : chainOf source first ts = .ok e) : ∃ cs links blanks, m.Spans cs n ∧ AllBlank blanks ∧
      pending ++ cs = links.flatMap Link.chars ++ blanks ∧ e = first.chain appendOperand links ∧
      ∀ l ∈ links, l.Separates [a, b] ∧ Spells .folding sub l.text l.operand := by
  induction h generalizing pending first with
  | nil =>
    cases he
    exact ⟨[], [], pending, .refl _, hpending, List.append_nil _, rfl, List.forall_mem_nil _⟩
  | @cons m k l n before us vs hk hbefore hmatch _ ih =>
    obtain ⟨o, after, j, os, ts, hop, hj, hafter, hoperand, rfl⟩ :=
      Grammar.yields_spaced_some hmatch
    rw [List.append_assoc] at he hts
    obtain ⟨t, rfl, hspelled⟩ := hts.append.2.append.1.of_yields hoperand
    obtain ⟨us, hbody, rfl⟩ := Grammar.yields_token_some hop
    obtain ⟨c, hc, ho⟩ := hlevel.of_yields_op hbody
    -- The operand ends with its blanks, which belong to the next link, or to no link at the end of
    -- the chain.
    rw [List.singleton_append, List.singleton_append, chainOf] at he
    obtain ⟨operand, hoperand, he⟩ := bind_eq_ok.1 he
    obtain ⟨text, blanks, hl, hblanks, hspells⟩ := hspelled operand hoperand
    obtain ⟨cs, links, rest, hn, hrest, hcs, rfl, hlinks⟩ := ih hts.append.2.append.2 hblanks he
    refine ⟨_, ⟨pending ++ before, c, after, text, operand⟩ :: links, rest,
      hk.trans (ho.trans (hj.trans (hl.trans hn))), hrest, ?_, ?_,
      List.forall_mem_cons.2 ⟨?_, hlinks⟩⟩
    · rw [List.flatMap_cons, Link.chars, List.append_assoc _ _ rest, ← hcs]
      simp
    · have hsymbol : (operatorOf (.node op k o us) : Symbol α) = symbolOf c :=
        operatorOf_eq ho.until_eq
      rw [hsymbol]
      rfl
    · exact ⟨⟨hc, hpending.append hbefore, hafter⟩, hsub ▸ hspells⟩

theorem exists_arguments
    (h : modelGrammar.Repeats false (.spaced (.exactly ',') [.rule .expression]) m n ts)
    (hts : AreSpelled (α := α) source ts) {first closing : List Char}
    (hclosing : AllBlank closing) {e : Expr α}
    (hfirst : Spells .folding .expressionFile first e) {es : List (Expr α)}
    (hes : ofTokens source ts = .ok es) :
    ∃ (cs : List Char) (args : List (List Char × Expr α)), m.Spans cs n ∧ args ≠ [] ∧
      first ++ (cs ++ closing) = [','].intercalate (args.map (·.1)) ∧ args.map (·.2) = e :: es ∧
      ∀ p ∈ args, Spells .folding .expressionFile p.1 p.2 := by
  induction h generalizing first e es with
  | nil =>
    cases hes
    exact ⟨[], [(first ++ closing, e)], .refl _,
      by simp, by simp, rfl, by simpa using hfirst.append_blanks hclosing⟩
  | @cons m k l n before us vs hk hbefore hmatch _ ih =>
    obtain ⟨o, after, j, os, ts, hcomma, hj, hafter, hargument, rfl⟩ :=
      Grammar.yields_spaced_some hmatch
    obtain ⟨ho, rfl⟩ := Grammar.yields_exactly_some hcomma
    obtain ⟨t, rfl, hspelled⟩ := hts.append.1.of_yields hargument
    obtain ⟨a, ha, hes⟩ := bind_eq_ok.1 hes
    obtain ⟨as, has, hes⟩ := bind_eq_ok.1 hes
    cases hes
    obtain ⟨text, blanks, hl, hblanks, hspells⟩ := hspelled a ha
    -- Blanks on both sides of an argument are part of its text, so the argument just read is the
    -- next one's `first`.
    obtain ⟨cs, args, hn, hne, hcs, hvalues, hall⟩ :=
      ih hts.append.2 (.padded hafter hblanks hspells) has
    refine ⟨_, (first ++ before, e) :: args, hk.trans (ho.trans (hj.trans (hl.trans hn))),
      by simp, ?_, ?_, ?_⟩
    · rw [List.map_cons, List.intercalate_cons_of_ne_nil (by simpa using hne), ← hcs]
      simp
    · rw [List.map_cons, hvalues]
    · exact List.forall_mem_cons.2 ⟨hfirst.append_blanks hbefore, hall⟩

/-! ### Each rule -/

theorem spelled_chain {parent op sub : Rule} {a b : Char} (hlevel : ChainLevel parent op sub a b)
    (hsub : levelOf sub = sub) (hspells : ∀ {text : List Char} {e : Expr α} {links : List (Link α)},
      Spells .folding sub text e → (∀ l ∈ links, l.Separates [a, b]) →
      (∀ l ∈ links, Spells .folding sub l.text l.operand) →
      Spells .folding parent (text ++ links.flatMap Link.chars) (e.chain appendOperand links))
    (hbody : modelGrammar.Yields false parent.body m (some (n, ts)))
    (hts : AreSpelled (α := α) source ts)
    (h : ofToken source (.node parent m n ts) = .ok e) : Spelled parent m n e := by
  rw [hlevel.body] at hbody
  obtain ⟨k, blanks, j, us, vs, hfirst, hj, hblanks, hrest, rfl⟩ := Grammar.yields_spaced_some hbody
  obtain ⟨t, rfl, hspelled⟩ := hts.append.1.of_yields hfirst
  rw [List.singleton_append, hlevel.ofToken] at h
  obtain ⟨first, hfirst, h⟩ := bind_eq_ok.1 h
  obtain ⟨text, pending, hk, hpending, htext⟩ := hsub ▸ hspelled first hfirst
  obtain ⟨cs, links, rest, hn, hrest, hcs, rfl, hlinks⟩ :=
    exists_links hlevel hsub (Grammar.repeats_of_spacedStar hrest) hts.append.2
      (hpending.append hblanks) h
  refine ⟨_, rest, ?_, hrest, hspells htext (fun l hl => (hlinks l hl).1) fun l hl =>
    (hlinks l hl).2⟩
  rw [List.append_assoc, ← hcs]
  simpa using hk.trans (hj.trans hn)

theorem spelled_unary (hbody : modelGrammar.Yields false Rule.unary.body m (some (n, ts)))
    (hts : AreSpelled (α := α) source ts) (h : ofToken source (.node .unary m n ts) = .ok e) :
    Spelled .unary m n e := by
  rcases Grammar.yields_alt_some hbody with hbody | hbody
  · obtain ⟨k, blanks, j, us, vs, hsign, hj, hblanks, hoperand, rfl⟩ :=
      Grammar.yields_spaced_some hbody
    obtain ⟨ss, hminus, rfl⟩ := Grammar.yields_token_some hsign
    obtain ⟨t, rfl, hspelled⟩ := hts.append.2.of_yields hoperand
    obtain ⟨hk, -⟩ := Grammar.yields_exactly_some hminus
    rw [List.singleton_append, ofToken] at h
    obtain ⟨operand, hoperand, h⟩ := bind_eq_ok.1 h
    cases h
    obtain ⟨text, rest, hn, hrest, hspells⟩ := hspelled operand hoperand
    refine ⟨_, rest, ?_, hrest, .minus hblanks hspells⟩
    simpa using hk.trans (hj.trans hn)
  · exact hts.of_part hbody (fun t => by rw [ofToken]) h

theorem spelled_power (hbody : modelGrammar.Yields false Rule.power.body m (some (n, ts)))
    (hts : AreSpelled (α := α) source ts) (h : ofToken source (.node .power m n ts) = .ok e) :
    Spelled .unary m n e := by
  obtain ⟨k, before, j, us, vs, hbase, hj, hbefore, hrest, rfl⟩ := Grammar.yields_spaced_some hbody
  obtain ⟨t, rfl, hspelled⟩ := hts.append.1.of_yields hbase
  cases hrest with
  | opt_none =>
    rw [List.append_nil, ofToken] at h
    obtain ⟨text, blanks, hk, hblanks, hspells⟩ := (hspelled e h).append_blanks hj hbefore
    exact ⟨text, blanks, hk, hblanks, .primary hspells⟩
  | opt_some hrest =>
    obtain ⟨l, after, i, ws, xs, hcaret, hi, hafter, hexponent, rfl⟩ :=
      Grammar.yields_spaced_some hrest
    obtain ⟨hl, rfl⟩ := Grammar.yields_exactly_some hcaret
    obtain ⟨t', rfl, hspelled'⟩ := hts.append.2.of_yields hexponent
    rw [List.nil_append, List.singleton_append, ofToken] at h
    obtain ⟨base, hbase, h⟩ := bind_eq_ok.1 h
    obtain ⟨exponent, hexponent, h⟩ := bind_eq_ok.1 h
    cases h
    obtain ⟨text, blanks, hk, hblanks, hspells⟩ := hspelled base hbase
    obtain ⟨text', rest, hn, hrest, hspells'⟩ := hspelled' exponent hexponent
    refine ⟨_, rest, ?_, hrest, .power hspells (hblanks.append hbefore) hafter hspells'⟩
    simpa using hk.trans (hj.trans (hl.trans (hi.trans hn)))

theorem spelled_primary (hbody : modelGrammar.Yields false Rule.primary.body m (some (n, ts)))
    (hts : AreSpelled (α := α) source ts) (h : ofToken source (.node .primary m n ts) = .ok e) :
    Spelled .primary m n e := by
  rcases Grammar.yields_alt_some hbody with hbody | hbody
  · exact hts.of_part hbody (fun t => by rw [ofToken]) h
  rcases Grammar.yields_alt_some hbody with hbody | hbody
  · exact hts.of_part hbody (fun t => by rw [ofToken]) h
  rcases Grammar.yields_alt_some hbody with hbody | hbody
  · exact hts.of_part hbody (fun t => by rw [ofToken]) h
  · obtain ⟨k, before, j, us, vs, hopen, hj, hbefore, hrest, rfl⟩ :=
      Grammar.yields_spaced_some hbody
    obtain ⟨hk, rfl⟩ := Grammar.yields_exactly_some hopen
    obtain ⟨l, after, i, us, vs, hinner, hi, hafter, hclose, rfl⟩ :=
      Grammar.yields_spaced_some hrest
    obtain ⟨t, rfl, hspelled⟩ := hts.append.2.append.1.of_yields hinner
    obtain ⟨hn, rfl⟩ := Grammar.yields_exactly_some hclose
    rw [List.nil_append, List.append_nil, ofToken] at h
    obtain ⟨text, blanks, hl, hblanks, hspells⟩ := hspelled e h
    refine ⟨_, [], ?_, .nil, .parens (.padded hbefore (hblanks.append hafter) hspells)⟩
    simpa using hk.trans (hj.trans (hl.trans (hi.trans hn)))

theorem spelled_call (hbody : modelGrammar.Yields false Rule.call.body m (some (n, ts)))
    (hts : AreSpelled (α := α) source ts) (h : ofToken source (.node .call m n ts) = .ok e) :
    Spelled .primary m n e := by
  obtain ⟨k, blanks, j, us, vs, hname, hj, hblanks, hcall, rfl⟩ := Grammar.yields_spaced_some hbody
  obtain ⟨ns, hidentifier, rfl⟩ := Grammar.yields_token_some hname
  obtain ⟨l, before, i, us, vs, hopen, hi, hbefore, hinside, rfl⟩ :=
    Grammar.yields_spaced_some hcall
  obtain ⟨hl, rfl⟩ := Grammar.yields_exactly_some hopen
  obtain ⟨p, after, q, us, vs, hfirst, hq, hafter, hrest, rfl⟩ := Grammar.yields_spaced_some hinside
  obtain ⟨x, closing, y, ws, xs, harguments, hy, hclosing, hclose, rfl⟩ :=
    Grammar.yields_spaced_some hrest
  obtain ⟨hn, rfl⟩ := Grammar.yields_exactly_some hclose
  obtain ⟨name, hspans, hname⟩ := isIdentifier_of_yields hidentifier
  rw [List.nil_append, List.append_nil] at h hts
  -- the parts of the token are the name, the first operand and the others behind commas
  obtain ⟨t, rfl, hspelled⟩ := hts.append.2.append.1.of_yields hfirst
  rw [List.singleton_append, List.singleton_append, ofToken] at h
  obtain ⟨es, hes, h⟩ := bind_eq_ok.1 h
  obtain ⟨first, hfirst, hes⟩ := bind_eq_ok.1 hes
  obtain ⟨es, hrest, hes⟩ := bind_eq_ok.1 hes
  cases hes
  obtain ⟨text, pending, hp, hpending, hspells⟩ := hspelled first hfirst
  obtain ⟨cs, args, hx, hne, hcs, hvalues, hall⟩ :=
    exists_arguments (Grammar.repeats_of_spacedStar harguments)
    hts.append.2.append.2 hclosing (.padded hbefore (hpending.append hafter) hspells) hrest
  have hchars : String.ofList (Token.node Rule.identifier m k ns).chars = name := by
    show String.ofList (m.until k) = name
    rw [hspans.until_eq, String.ofList_toList]
  -- reading has succeeded, so the name is that of a function that takes so many operands
  unfold applyFunction at h
  rw [hchars] at h
  split at h
  · cases h
  · rename_i s arity hcall
    split at h
    · rename_i harity
      cases h
      rw [← hvalues]
      refine ⟨_, [], ?_, .nil,
        .call hname hblanks hne hall hcall (by rwa [← hvalues, List.length_map] at harity)⟩
      rw [← hcs]
      simpa using hspans.trans
        (hj.trans (hl.trans (hi.trans (hp.trans (hq.trans (hx.trans (hy.trans hn)))))))
    · cases h

theorem spelled_var (hbody : modelGrammar.Yields false Rule.var.body m (some (n, ts)))
    (h : ofToken source (.node .var m n ts) = .ok e) : Spelled .primary m n e := by
  obtain ⟨name, hname, hne, hquote, htext⟩ := name_of_yields (r := .var) hbody
  rw [ofToken, hname] at h
  cases h
  rcases htext with ⟨hname, hn⟩ | hn
  · exact ⟨_, [], by simpa using hn, .nil, .identifier hname⟩
  · exact ⟨_, [], by simpa using hn, .nil, .quoted hne hquote⟩

theorem spelled_number (hbody : modelGrammar.Yields true Rule.number.body m (some (n, ts)))
    (h : ofToken source (.node .number m n ts) = .ok e) : Spelled .primary m n e := by
  obtain ⟨cs, hcs, hn⟩ := isNumeral_of_yields hbody
  rw [ofToken] at h
  split at h
  · rename_i v hv
    cases h
    rw [hn.until_eq] at hv
    exact ⟨cs, [], by simpa using hn, .nil, .number hcs hv⟩
  · cases h

theorem spelled_of_ofToken {t : Token Rule} (ht : modelGrammar.Derived t)
    (h : ofToken source t = .ok e) : Spelled (levelOf t.rule) t.start t.stop e := by
  induction ht generalizing e with
  | @node r m n ts hbody _ ih =>
    have hts : AreSpelled (α := α) source ts := fun t ht e => ih t ht
    -- The tokens of the other rules stand for no expression.
    cases r with
    | expression => exact spelled_chain sums rfl .sum hbody hts h
    | term => exact spelled_chain products rfl .product hbody hts h
    | unary => exact spelled_unary hbody hts h
    | power => exact spelled_power hbody hts h
    | primary => exact spelled_primary hbody hts h
    | call => exact spelled_call hbody hts h
    | var => exact spelled_var hbody h
    | number => exact spelled_number hbody h
    | _ => simp [ofToken, failAt] at h

/-! ### Sources -/

/-- A source is read as what it spells, if the limits allow. -/
theorem read_eq_ok_iff_spells {limits : Limits} {source : String} : read limits source = .ok e ↔
    source.utf8ByteSize ≤ limits.sourceBytes ∧ Spells .folding .expressionFile source.toList e ∧
    limits.Allows e := by
  rw [read_eq_ok]
  refine and_congr_right fun _ => and_congr_left fun _ => ?_
  constructor
  · rintro ⟨file, t, hfile, ht, he⟩
    obtain ⟨n, hyields⟩ := parseRule_eq_ok.1 hfile
    obtain ⟨ts, hbody, hparts⟩ := Grammar.yields_token_some hyields
    cases hparts
    obtain ⟨k, before, j, us, vs, hstart, hj, hbefore, hrest, rfl⟩ :=
      Grammar.yields_spaced_some hbody
    cases hstart
    obtain ⟨l, after, i, us, vs, hexpression, hi, hafter, hend, rfl⟩ :=
      Grammar.yields_spaced_some hrest
    obtain ⟨us, -, rfl⟩ := Grammar.yields_token_some hexpression
    obtain ⟨vs, heoi, rfl⟩ := Grammar.yields_token_some hend
    cases ht
    obtain ⟨text, blanks, hl, hblanks, hspells⟩ :=
      spelled_of_ofToken (hexpression.occurs _ (List.mem_singleton_self _)).derived he
    have hsource := (hj.trans (hl.trans hi)).rest
    have hempty : i.rest = [] := by
      cases heoi
      assumption
    rw [hempty, List.append_nil, List.append_assoc] at hsource
    rw [show source.toList = _ from hsource]
    exact .padded hbefore (hblanks.append hafter) hspells
  · intro h
    obtain ⟨file, t, hfile, ht, hread⟩ := ReadsPadded.file (readsAt_of_spells h)
    exact ⟨file, t, hfile, ht, hread _⟩

/-! ### Another assembly -/

/-- A relation between expressions that two assemblies keep, whatever they put together. -/
structure Assembly.Keep (b b' : Assembly α) (R : Expr α → Expr α → Prop) : Prop where
  number {text : List Char} {v : α} : numeral? text = some v → R (constant v) (constant v)
  name {name : String} : name.toList ≠ [] → '\'' ∉ name.toList →
    R (ofVariable name) (ofVariable name)
  call {name : String} {s : Symbol α} {arity : Arity} {args args' : List (Expr α)} :
    callSymbol? name = some (s, arity) → arity.accepts args.length = true →
    List.Forall₂ R args args' →
    R (node s args) (node s args')
  power {a a' c c' : Expr α} : R a a' → R c c' → R (binary .power a c) (binary .power a' c')
  negate {a a' : Expr α} : R a a' → R (b.negate a) (b'.negate a')
  join {s : Symbol α} {a a' c c' : Expr α} : s.Chains → R a a' → R c c' →
    R (b.join a s c) (b'.join a' s c')

variable {b b' : Assembly α} {R : Expr α → Expr α → Prop}

theorem Assembly.Keep.symm (h : b.Keep b' R) : b'.Keep b (flip R) where
  number := h.number
  name := h.name
  call hcall harity hall := h.call hcall (by rwa [← hall.length_eq]) hall.flip
  power := h.power
  negate := h.negate
  join := h.join

omit [Scalar α] [Numeral α] in
theorem chains_symbolOf (c : Char) : (symbolOf c : Symbol α).Chains := by
  unfold symbolOf
  split <;> simp [Symbol.Chains]

theorem exists_related_links (hkeep : b.Keep b' R) {operators : List Char} {links : List (Link α)}
    (hlinks : ∀ l ∈ links, l.Separates operators)
    (h : ∀ l ∈ links, ∃ e', Spells b' r l.text e' ∧ R l.operand e')
    {e e' : Expr α} (he : R e e') :
    ∃ links' : List (Link α), links'.flatMap Link.chars = links.flatMap Link.chars ∧
      (∀ l ∈ links', l.Separates operators) ∧ (∀ l ∈ links', Spells b' r l.text l.operand) ∧
      R (e.chain b.join links) (e'.chain b'.join links') := by
  induction links generalizing e e' with
  | nil => exact ⟨[], rfl, List.forall_mem_nil _, List.forall_mem_nil _, he⟩
  | cons l links ih =>
    rw [List.forall_mem_cons] at hlinks h
    obtain ⟨⟨a, hspells, ha⟩, h⟩ := h
    obtain ⟨links', htext, hseparates, hspells', hchain⟩ :=
      ih hlinks.2 h (hkeep.join (chains_symbolOf l.operator) he ha)
    refine ⟨{ l with operand := a } :: links', ?_,
      List.forall_mem_cons.2 ⟨⟨hlinks.1.operator, hlinks.1.before, hlinks.1.after⟩, hseparates⟩,
      List.forall_mem_cons.2 ⟨hspells, hspells'⟩, hchain⟩
    rw [List.flatMap_cons, List.flatMap_cons, htext]
    rfl

theorem exists_related_arguments {args : List (List Char × Expr α)}
    (h : ∀ p ∈ args, ∃ e', Spells b' r p.1 e' ∧ R p.2 e') : ∃ args' : List (List Char × Expr α),
      args'.map (·.1) = args.map (·.1) ∧ (∀ p ∈ args', Spells b' r p.1 p.2) ∧
      List.Forall₂ R (args.map (·.2)) (args'.map (·.2)) := by
  induction args with
  | nil => exact ⟨[], rfl, List.forall_mem_nil _, .nil⟩
  | cons p args ih =>
    rw [List.forall_mem_cons] at h
    obtain ⟨⟨a, hspells, ha⟩, h⟩ := h
    obtain ⟨args', htexts, hspells', hall⟩ := ih h
    exact ⟨(p.1, a) :: args',
      by simp [htexts], List.forall_mem_cons.2 ⟨hspells, hspells'⟩, .cons ha hall⟩

/-- What a text spells with one assembly, it spells with the other one too, and the two are
related. -/
theorem Spells.exists_related (hkeep : b.Keep b' R) {text : List Char} (h : Spells b r text e) :
    ∃ e', Spells b' r text e' ∧ R e e' := by
  induction h with
  | number h hv => exact ⟨_, .number h hv, hkeep.number hv⟩
  | identifier hname =>
    obtain ⟨c, cs, hcs, -⟩ := head_of_isIdentifier hname
    exact ⟨_, .identifier hname, hkeep.name (by simp [hcs]) (quote_not_mem_of_isIdentifier hname)⟩
  | quoted hne hquote => exact ⟨_, .quoted hne hquote, hkeep.name hne hquote⟩
  | call hname hblanks hne _ hcall harity ih =>
    obtain ⟨args', htexts, hspells, hall⟩ := exists_related_arguments ih
    have hlen := congrArg List.length htexts
    rw [List.length_map, List.length_map] at hlen
    rw [← htexts]
    refine ⟨_, .call hname hblanks (fun h => hne ?_) hspells hcall (by rwa [hlen]),
      hkeep.call hcall (by rwa [List.length_map]) hall⟩
    exact List.length_eq_zero_iff.1 (hlen ▸ List.length_eq_zero_iff.2 h)
  | parens _ ih =>
    obtain ⟨e', hspells, he⟩ := ih
    exact ⟨e', .parens hspells, he⟩
  | primary _ ih =>
    obtain ⟨e', hspells, he⟩ := ih
    exact ⟨e', .primary hspells, he⟩
  | power _ hbefore hafter _ iha ihc =>
    obtain ⟨a', hspells, ha⟩ := iha
    obtain ⟨c', hspells', hc⟩ := ihc
    exact ⟨_, .power hspells hbefore hafter hspells', hkeep.power ha hc⟩
  | minus hblanks _ ih =>
    obtain ⟨a', hspells, ha⟩ := ih
    exact ⟨_, .minus hblanks hspells, hkeep.negate ha⟩
  | product _ hlinks _ ih ihs =>
    obtain ⟨e', hspells, he⟩ := ih
    obtain ⟨links', htext, hseparates, hspells', hchain⟩ := exists_related_links hkeep hlinks ihs he
    exact ⟨_, htext ▸ .product hspells hseparates hspells', hchain⟩
  | sum _ hlinks _ ih ihs =>
    obtain ⟨e', hspells, he⟩ := ih
    obtain ⟨links', htext, hseparates, hspells', hchain⟩ := exists_related_links hkeep hlinks ihs he
    exact ⟨_, htext ▸ .sum hspells hseparates hspells', hchain⟩
  | padded hbefore hafter _ ih =>
    obtain ⟨e', hspells, he⟩ := ih
    exact ⟨e', .padded hbefore hafter hspells, he⟩

end

end ModalBounds.Expr
