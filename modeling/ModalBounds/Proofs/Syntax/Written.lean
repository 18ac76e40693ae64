import ModalBounds.Syntax.Expression
import ModalBounds.Proofs.Failure
import ModalBounds.Proofs.Syntax.Lexical

/-!
# What reading builds

`Written` describes the expressions that are read from a source: no variable has a weight, a minus
is never left before a constant, and the first operand of a chain is no chain of the same operator.
Every expression that a token stands for is of this kind (`written_of_ofToken`).
-/

namespace ModalBounds

/-! ### Names and numerals in tokens -/

section
variable {s : Bool} {m n : Mark} {ts : List (Token Rule)}

theorem isIdentifier_of_yields (h : modelGrammar.Yields s Rule.identifier.body m (some (n, ts))) :
    ∃ name, m.Spans name.toList n ∧ isIdentifier name = true := by
  obtain ⟨k, _, _, hfirst, hstar, -⟩ := Grammar.yields_seq_some.1 h
  obtain ⟨c, hc, hk, -⟩ := Grammar.yields_char_some hfirst
  obtain ⟨cs, hn, hcs⟩ :=
    Grammar.yields_star_some (P := fun d => isIdentifierChar d = true) hstar fun h => by
    obtain ⟨d, hd, hspans, -⟩ := Grammar.yields_char_some h
    exact ⟨[d], hspans, fun c hc => by rw [List.mem_singleton.1 hc]; exact hd⟩
  refine ⟨String.ofList (c :: cs), by simpa using hk.trans hn, ?_⟩
  simp only [isIdentifier, String.toList_ofList, Bool.and_eq_true, List.all_eq_true]
  exact ⟨hc, hcs⟩

theorem unquoted_of_yields
    (h : modelGrammar.Yields s (.tight (.notHere (.exactly '\'')) [.char fun _ => true]) m
      (some (n, ts))) :
    ∃ c, c ≠ '\'' ∧ m.Spans [c] n := by
  obtain ⟨k, _, _, hnot, hany, -⟩ := Grammar.yields_seq_some.1 h
  obtain ⟨c, -, hc, -⟩ := Grammar.yields_char_some hany
  cases hnot with
  | notHere hnot =>
    refine ⟨c, ?_, hc⟩
    rintro rfl
    obtain ⟨_, -, hquote⟩ := Grammar.yields_exactly (g := modelGrammar) (s := true) hc.rest
    cases hnot.unique hquote

theorem unquoted_of_yields_quotedName
    (h : modelGrammar.Yields s Rule.quotedName.body m (some (n, ts))) :
    ∃ cs, cs ≠ [] ∧ '\'' ∉ cs ∧ m.Spans cs n := by
  obtain ⟨k, _, _, hfirst, hstar, -⟩ := Grammar.yields_seq_some.1 h
  obtain ⟨c, hc, hk⟩ := unquoted_of_yields hfirst
  obtain ⟨cs, hn, hcs⟩ := Grammar.yields_star_some (P := fun d => d ≠ '\'') hstar fun h => by
    obtain ⟨d, hd, hspans⟩ := unquoted_of_yields h
    exact ⟨[d], hspans, by simpa using hd⟩
  refine ⟨c :: cs, List.cons_ne_nil _ _, ?_, hk.trans hn⟩
  rw [List.mem_cons, not_or]
  exact ⟨Ne.symm hc, fun hmem => hcs _ hmem rfl⟩

theorem quoted_of_yields (h : modelGrammar.Yields s Rule.quotedIdentifier.body m (some (n, ts))) :
    ∃ cs, cs ≠ [] ∧ '\'' ∉ cs ∧ m.Spans ('\'' :: (cs ++ ['\''])) n := by
  obtain ⟨k, _, _, hopen, hrest, -⟩ := Grammar.yields_seq_some.1 h
  obtain ⟨l, _, _, hinner, hclose, -⟩ := Grammar.yields_seq_some.1 hrest
  obtain ⟨hk, -⟩ := Grammar.yields_exactly_some hopen
  obtain ⟨hn, -⟩ := Grammar.yields_exactly_some hclose
  obtain ⟨_, hname, -⟩ := Grammar.yields_rule_some hinner
  obtain ⟨cs, hne, hcs, hl⟩ := unquoted_of_yields_quotedName hname
  exact ⟨cs, hne, hcs, hk.trans (hl.trans hn)⟩

/-- The name in a token is not empty and has no quote in it. It is written as it is if it is an
identifier, or between quotes. -/
theorem name_of_yields {r : Rule} (h : modelGrammar.Yields false
      (.firstOf (.rule .identifier) [.rule .quotedIdentifier]) m (some (n, ts))) :
    ∃ name, nameOf? (.node r m n ts) = some name ∧ name.toList ≠ [] ∧ '\'' ∉ name.toList ∧
      (isIdentifier name = true ∧ m.Spans name.toList n ∨
        m.Spans ('\'' :: (name.toList ++ ['\''])) n) := by
  rcases Grammar.yields_alt_some h with h | h
  · obtain ⟨us, hbody, rfl⟩ := Grammar.yields_rule_some h
    obtain ⟨name, hspans, hname⟩ := isIdentifier_of_yields hbody
    have hus : us = [] := hbody.eq_nil_of_silent
    subst hus
    obtain ⟨c, cs, hcs, -⟩ := head_of_isIdentifier hname
    refine ⟨name, ?_, by simp [hcs], quote_not_mem_of_isIdentifier hname, .inl ⟨hname, hspans⟩⟩
    show some (String.ofList (m.until n)) = some name
    rw [hspans.until_eq, String.ofList_toList]
  · obtain ⟨us, hbody, rfl⟩ := Grammar.yields_rule_some h
    obtain ⟨k, _, _, hopen, hrest, rfl⟩ := Grammar.yields_seq_some.1 hbody
    obtain ⟨l, _, _, hinner, hclose, rfl⟩ := Grammar.yields_seq_some.1 hrest
    obtain ⟨hk, rfl⟩ := Grammar.yields_exactly_some hopen
    obtain ⟨hn, rfl⟩ := Grammar.yields_exactly_some hclose
    obtain ⟨vs, hname, rfl⟩ := Grammar.yields_rule_some hinner
    obtain ⟨cs, hne, hcs, hspans⟩ := unquoted_of_yields_quotedName hname
    refine ⟨String.ofList cs, ?_, by simpa using hne, by simpa using hcs, .inr ?_⟩
    · show some (String.ofList (k.until l)) = some (String.ofList cs)
      rw [hspans.until_eq]
    · rw [String.toList_ofList]
      exact hk.trans (hspans.trans hn)

theorem isDigits_of_yields
    (h : modelGrammar.Yields s (.tightPlus (.char Char.isDigit)) m (some (n, ts))) :
    ∃ ds, IsDigits ds ∧ m.Spans ds n := by
  obtain ⟨k, _, _, hfirst, hstar, -⟩ := Grammar.yields_seq_some.1 h
  obtain ⟨c, hc, hk, -⟩ := Grammar.yields_char_some hfirst
  obtain ⟨cs, hn, hcs⟩ :=
    Grammar.yields_star_some (P := fun d => d.isDigit = true) hstar fun h => by
    obtain ⟨d, hd, hspans, -⟩ := Grammar.yields_char_some h
    exact ⟨[d], hspans, by simpa using hd⟩
  exact ⟨c :: cs, ⟨List.cons_ne_nil _ _, List.forall_mem_cons.2 ⟨hc, hcs⟩⟩, hk.trans hn⟩

theorem sign_of_yields
    (h : modelGrammar.Yields s (.opt (.firstOf (.exactly '+') [.exactly '-'])) m (some (n, ts))) :
    ∃ sign, (sign = [] ∨ sign = ['+'] ∨ sign = ['-']) ∧ m.Spans sign n := by
  cases h with
  | opt_none => exact ⟨[], .inl rfl, .refl m⟩
  | opt_some h =>
    rcases Grammar.yields_alt_some h with h | h
    · exact ⟨['+'], .inr (.inl rfl), (Grammar.yields_exactly_some h).1⟩
    · exact ⟨['-'], .inr (.inr rfl), (Grammar.yields_exactly_some h).1⟩

theorem isNumeral_of_yields (h : modelGrammar.Yields s Rule.number.body m (some (n, ts))) :
    ∃ cs, IsNumeral cs ∧ m.Spans cs n := by
  obtain ⟨k, _, _, hwhole, hrest, -⟩ := Grammar.yields_seq_some.1 h
  obtain ⟨l, _, _, hplaces, hexponent, -⟩ := Grammar.yields_seq_some.1 hrest
  obtain ⟨ds, hds, hk⟩ := isDigits_of_yields hwhole
  obtain ⟨ps, hps, hl⟩ : ∃ ps, IsPlainNumeral ps ∧ m.Spans ps l := by
    cases hplaces with
    | opt_none => exact ⟨ds, .inl hds, hk⟩
    | opt_some hplaces =>
      obtain ⟨j, _, _, hpoint, hdigits, -⟩ := Grammar.yields_seq_some.1 hplaces
      obtain ⟨fs, hfs, hl⟩ := isDigits_of_yields hdigits
      exact ⟨_, .inr ⟨ds, fs, hds, hfs, rfl⟩,
        hk.trans ((Grammar.yields_exactly_some hpoint).1.trans hl)⟩
  cases hexponent with
  | opt_none => exact ⟨ps, .inl hps, hl⟩
  | opt_some hexponent =>
    obtain ⟨i, _, _, hchar, hrest, -⟩ := Grammar.yields_seq_some.1 hexponent
    obtain ⟨j, _, _, hsign, hdigits, -⟩ := Grammar.yields_seq_some.1 hrest
    obtain ⟨c, hc, hi, -⟩ := Grammar.yields_char_some hchar
    obtain ⟨sign, hsign, hj⟩ := sign_of_yields hsign
    obtain ⟨es, hes, hn⟩ := isDigits_of_yields hdigits
    refine ⟨_, .inr ⟨ps, c, sign, es, hps, by simpa using hc, hsign, hes, rfl⟩,
      hl.trans (hi.trans (hj.trans hn))⟩

end

/-! ### Expressions -/

/-- The symbols of chains. -/
def Symbol.Chains {α : Type} (s : Symbol α) : Prop := s = .add ∨ s = .sub ∨ s = .mul ∨ s = .div

namespace Expr

section
variable {α : Type}

theorem chains_operatorOf (t : Token Rule) : (operatorOf t : Symbol α).Chains := by
  unfold operatorOf
  split <;> simp [Symbol.Chains]

theorem isChain_node [BEq α] {s : Symbol α} (hs : s.Chains) (t : Symbol α) (args : List (Expr α)) :
    (node t args).isChain s = true ↔ t = s ∧ 2 ≤ args.length := by
  have hbeq : (t == s) = true ↔ t = s := by
    constructor
    · rcases hs with rfl | rfl | rfl | rfl <;> cases t <;> first | exact fun _ => rfl | exact nofun
    · rintro rfl
      rcases hs with rfl | rfl | rfl | rfl <;> rfl
  rw [isChain, Bool.and_eq_true, hbeq, decide_eq_true_eq]

theorem callSymbol?_callName {name : String} {s : Symbol α} {arity : Arity}
    (h : callSymbol? name = some (s, arity)) :
    callSymbol? s.callName = some (s, arity) ∨ s = .power ∧ arity = .exactly 2 := by
  unfold callSymbol? at h
  split at h <;> cases h <;> first | exact .inl rfl | exact .inr ⟨rfl, rfl⟩

end

section
variable {α : Type} [Scalar α]

/-- An expression that reading can build. -/
inductive Written : Expr α → Prop
  | var {name : String} : name.toList ≠ [] → '\'' ∉ name.toList → Written (ofVariable name)
  | const (c : α) : Written (constant c)
  | neg {a : Expr α} : a.constantValue? = none → Written a → Written (unary .sub a)
  | power {a b : Expr α} : Written a → Written b → Written (binary .power a b)
  | chain {s : Symbol α} {a : Expr α} {args : List (Expr α)} : s.Chains →
    a.isChain s = false → args ≠ [] →
      (∀ b ∈ a :: args, Written b) → Written (node s (a :: args))
  | call {s : Symbol α} {arity : Arity} {args : List (Expr α)} : callSymbol? s.callName =
    some (s, arity) →
      arity.accepts args.length = true → (∀ a ∈ args, Written a) → Written (node s args)

theorem Written.negated {e : Expr α} (h : e.Written) : e.negated.Written := by
  unfold Expr.negated
  split
  · exact .const _
  · exact .neg ‹_› h

theorem Written.appendOperand {s : Symbol α} (hs : s.Chains) {chain operand : Expr α}
    (hc : chain.Written) (ho : operand.Written) : (chain.appendOperand s operand).Written := by
  unfold Expr.appendOperand
  split
  · rename_i hchain
    obtain ⟨t, args⟩ := chain
    obtain ⟨rfl, hlen⟩ := (isChain_node hs t args).1 hchain
    show (node t (args ++ [operand])).Written
    -- of the written forms only a chain can be continued
    generalize he : node t args = e at hc
    cases hc with
    | var | const => cases he; rcases hs with hs | hs | hs | hs <;> cases hs
    | power => cases he; rcases hs with hs | hs | hs | hs <;> cases hs
    | neg => cases he; simp at hlen
    | call hcall =>
      cases he
      rcases hs with rfl | rfl | rfl | rfl <;> cases hcall
    | @chain _ a args _ ha hne hall =>
      cases he
      rw [List.cons_append]
      refine .chain hs ha (by simp) fun b hb => ?_
      rw [← List.cons_append, List.mem_append, List.mem_singleton] at hb
      rcases hb with hb | rfl
      · exact hall b hb
      · exact ho
  · rename_i hchain
    refine .chain hs (by simpa using hchain) (by simp) fun b hb => ?_
    simp only [List.mem_cons, List.not_mem_nil, or_false] at hb
    rcases hb with rfl | rfl
    · exact hc
    · exact ho

theorem written_call {name : String} {s : Symbol α} {arity : Arity} {args : List (Expr α)}
    (hcall : callSymbol? name = some (s, arity)) (harity : arity.accepts args.length = true)
    (hargs : ∀ a ∈ args, a.Written) : (node s args).Written := by
  rcases callSymbol?_callName hcall with hcall | ⟨rfl, rfl⟩
  · exact .call hcall harity hargs
  · obtain ⟨a, b, rfl⟩ := List.length_eq_two.1 (beq_iff_eq.1 harity)
    exact .power (hargs a (by simp)) (hargs b (by simp))

theorem written_applyFunction {source : List Char} {t : Token Rule} {name : String}
    {args : List (Expr α)} {e : Expr α}
    (hargs : ∀ a ∈ args, a.Written) (h : applyFunction source t name args = .ok e) : e.Written := by
  unfold applyFunction at h
  split at h
  · cases h
  · rename_i s arity hcall
    split at h
    · rename_i harity
      cases h
      exact written_call hcall harity hargs
    · cases h

variable [Numeral α] {source : List Char}

theorem written_chainOf {chain e : Expr α} (hc : chain.Written) : ∀ {ts : List (Token Rule)},
    (∀ t ∈ ts, ∀ e : Expr α, ofToken source t = .ok e → e.Written) →
    chainOf source chain ts = .ok e → e.Written
  | [], _, h => by cases h; exact hc
  | [_], _, h => by cases h; exact hc
  | operator :: operand :: ts, hts, h => by
    rw [chainOf] at h
    obtain ⟨a, ha, h⟩ := bind_eq_ok.1 h
    exact written_chainOf
      (hc.appendOperand (chains_operatorOf operator) (hts operand (by simp) a ha))
      (fun t ht => hts t (by simp [ht])) h

theorem written_ofTokens {es : List (Expr α)} : ∀ {ts : List (Token Rule)},
    (∀ t ∈ ts, ∀ e : Expr α, ofToken source t = .ok e → e.Written) → ofTokens source ts = .ok es →
    ∀ e ∈ es, e.Written
  | [], _, h => by cases h; simp
  | t :: ts, hts, h => by
    rw [ofTokens] at h
    obtain ⟨a, ha, h⟩ := bind_eq_ok.1 h
    obtain ⟨as, has, h⟩ := bind_eq_ok.1 h
    cases h
    rw [List.forall_mem_cons]
    exact ⟨hts t (by simp) a ha, written_ofTokens (fun t ht => hts t (by simp [ht])) has⟩

/-- Every expression that a token stands for could have been written. -/
theorem written_of_ofToken {t : Token Rule} (ht : modelGrammar.Derived t) {e : Expr α}
    (h : ofToken source t = .ok e) : e.Written := by
  induction ht generalizing e with
  | @node r m n ts hbody _ ih =>
    have ih : ∀ t ∈ ts, ∀ e : Expr α, ofToken source t = .ok e → e.Written := fun t ht e => ih t ht
    unfold ofToken at h
    split at h
    · obtain ⟨a, ha, h⟩ := bind_eq_ok.1 h
      exact written_chainOf (ih _ (by simp) a ha) (fun t ht => ih t (by simp [ht])) h
    · obtain ⟨a, ha, h⟩ := bind_eq_ok.1 h
      exact written_chainOf (ih _ (by simp) a ha) (fun t ht => ih t (by simp [ht])) h
    · obtain ⟨a, ha, h⟩ := bind_eq_ok.1 h
      cases h
      exact (ih _ (by simp) a ha).negated
    · exact ih _ (by simp) e h
    · exact ih _ (by simp) e h
    · obtain ⟨a, ha, h⟩ := bind_eq_ok.1 h
      obtain ⟨b, hb, h⟩ := bind_eq_ok.1 h
      cases h
      exact .power (ih _ (by simp) a ha) (ih _ (by simp) b hb)
    · exact ih _ (by simp) e h
    · obtain ⟨as, has, h⟩ := bind_eq_ok.1 h
      exact written_applyFunction (written_ofTokens (fun t ht => ih t (by simp [ht])) has) h
    · obtain ⟨name, hname, hne, hquote, -⟩ := name_of_yields (r := .var) hbody
      rw [hname] at h
      cases h
      exact .var hne hquote
    · split at h
      · cases h
        exact .const _
      · cases h
    · cases h

end

end Expr

end ModalBounds
