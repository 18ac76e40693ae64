import ModalBounds.Double
import ModalBounds.Expr.Print
import ModalBounds.Proofs.Expr.Tree
import ModalBounds.Proofs.Scalar.Field
import ModalBounds.Proofs.Syntax.Reading

/-!
# Reading an expression from its text

`Expr.asRead` is what the text of an expression is read as (`Written.readsAs`). It is the expression
itself unless a constant that is not finite stands in it, whose text is a word, or a negative zero
is the base of a power: it is written with a minus and without parentheses, and the minus then
belongs to the power (`Written.asRead_eq_self_iff`).
-/

namespace ModalBounds.Expr

section
variable {α : Type} [Scalar α] [Numeral α]

/-- What the text of a number without its minus is read as: a numeral or the name of a variable. -/
def unsignedConstant (c : α) : Expr α :=
  match numeral? (unsigned (numberText c).toList) with
  | some v => constant v
  | none => ofVariable (String.ofList (unsigned (numberText c).toList))

def constantAsRead (c : α) : Expr α :=
  if beginsSigned (numberText c).toList then (unsignedConstant c).negated else unsignedConstant c

/-- The number is written with a minus, but without parentheses. -/
def IsBareSigned (c : α) : Prop := ¬ c < 0 ∧ beginsSigned (numberText c).toList = true

instance (c : α) : Decidable (IsBareSigned c) := inferInstanceAs (Decidable (_ ∧ _))

/-- The value of a constant that is written with a bare minus. -/
def bareSigned? (e : Expr α) : Option α := e.constantValue?.filter fun c => decide (IsBareSigned c)

/-- What the text of a node is read as. The operands are given with what theirs are read as. -/
def nodeAsRead (s : Symbol α) (args read : List (Expr α)) : Expr α :=
  match s, args, read with
  | .const c, _, _ => constantAsRead c
  | .power, [base, _], [b, n] =>
    match base.bareSigned? with
    | some c => unary .sub (binary .power (unsignedConstant c) n)
    | none => binary .power b n
  | s, _, read => node s read

mutual

/-- What the text of an expression is read as. -/
def asRead : Expr α → Expr α
  | node s args => nodeAsRead s args (asReadAll args)

def asReadAll : List (Expr α) → List (Expr α)
  | [] => []
  | a :: rest => asRead a :: asReadAll rest

end

theorem asReadAll_eq (args : List (Expr α)) : asReadAll args = args.map asRead := by
  induction args with
  | nil => rfl
  | cons a rest ih => rw [asReadAll, ih, List.map_cons]

theorem texts_eq (args : List (Expr α)) : texts args = args.map text := by
  induction args with
  | nil => rfl
  | cons a rest ih => rw [texts, ih, List.map_cons]

theorem text_node (s : Symbol α) (args : List (Expr α)) :
    (node s args).text = s.textWith (args.map text) := by
  rw [text, texts_eq]

theorem asRead_node {s : Symbol α} (hconst : ∀ c, s ≠ .const c) (hpower : s ≠ .power)
    (args : List (Expr α)) : (node s args).asRead = node s (args.map asRead) := by
  rw [asRead, asReadAll_eq]
  unfold nodeAsRead
  split
  · exact absurd rfl (hconst _)
  · exact absurd rfl hpower
  · rfl

theorem asRead_constant (c : α) : (constant c).asRead = constantAsRead c := rfl

theorem asRead_power (a b : Expr α) : (binary .power a b).asRead =
    match a.bareSigned? with
    | some c => unary .sub (binary .power (unsignedConstant c) b.asRead)
    | none => binary .power a.asRead b.asRead := rfl

/-! ### Constants -/

/-- The number reads back from its text, as finite ones do. -/
def ReadsBack (c : α) : Prop := HasDecimal c → readNumber (numberText c).toList = .ok c

theorem unsignedConstant_of_not_hasDecimal {c : α} (h : ¬ HasDecimal c) : ∃ name : String,
    isIdentifier name = true ∧ unsigned (numberText c).toList = name.toList ∧
    unsignedConstant c = ofVariable name := by
  rw [unsignedConstant, unsigned_of_not_hasDecimal h]
  split_ifs
  · exact ⟨"NaN", by decide, rfl, rfl⟩
  · exact ⟨"inf", by decide, rfl, rfl⟩

theorem constantAsRead_eq_self {c : α} (h : HasDecimal c) (hread : ReadsBack c) :
    constantAsRead c = constant c := by
  obtain ⟨v, hv, hc⟩ := numeral?_unsigned h (hread h)
  rw [constantAsRead, unsignedConstant, hv]
  split_ifs with hsign
  · rw [if_pos hsign] at hc
    rw [hc]
    rfl
  · rw [if_neg hsign] at hc
    rw [hc]

theorem constantAsRead_eq_self_iff {c : α} (hread : ReadsBack c) :
    constantAsRead c = constant c ↔ HasDecimal c := by
  refine ⟨fun heq => ?_, fun h => constantAsRead_eq_self h hread⟩
  by_contra h
  obtain ⟨name, -, -, hname⟩ := unsignedConstant_of_not_hasDecimal h
  rw [constantAsRead, hname] at heq
  split_ifs at heq <;> cases heq

theorem readsAs_unsignedConstant {c : α} (hread : ReadsBack c) :
    ReadsAs .primary (unsigned (numberText c).toList) (unsignedConstant c) := by
  by_cases h : HasDecimal c
  · obtain ⟨v, hv, -⟩ := numeral?_unsigned h (hread h)
    rw [unsignedConstant, hv]
    exact .number (.inl (isPlainNumeral_unsigned h)) hv
  · obtain ⟨name, hname, htext, hconst⟩ := unsignedConstant_of_not_hasDecimal h
    rw [hconst, htext]
    exact .identifier hname

/-! ### Chains -/

/-- Operands as they are written after an operator, with a blank on either side of it. -/
def links (c : Char) (args : List (Expr α)) : List (Link α) :=
  args.map fun a => ⟨[' '], c, [' '], a.text.toList, a.asRead⟩

omit [Numeral α] in
theorem foldl_appendOperand_node {s : Symbol α} (hs : s.Chains) (operands : List (Expr α)) :
    ∀ {args : List (Expr α)}, 2 ≤ args.length →
      operands.foldl (fun e b => e.appendOperand s b) (node s args) =
        node s (args ++ operands) := by
  induction operands with
  | nil => simp
  | cons b operands ih =>
    intro args hlen
    have hchain : (node s args).appendOperand s b = node s (args ++ [b]) := by
      rw [appendOperand, if_pos ((isChain_node hs s args).2 ⟨rfl, hlen⟩)]
      rfl
    rw [List.foldl_cons, hchain, ih (by simp; omega), List.append_assoc, List.singleton_append]

/-- Operands that are joined by one operator become one node with what they start with. -/
theorem chain_links {s : Symbol α} (hs : s.Chains) {c : Char} (hc : symbolOf c = s) {e : Expr α}
    (he : e.isChain s = false) (b : Expr α) (rest : List (Expr α)) :
    e.chain appendOperand (links c (b :: rest)) = node s (e :: (b :: rest).map asRead) := by
  have hfold (e : Expr α) (args : List (Expr α)) :
      e.chain appendOperand (links c args) =
        (args.map asRead).foldl (fun e b => e.appendOperand s b) e := by
    subst hc
    rw [chain, links, List.foldl_map, List.foldl_map]
  have hbinary : e.appendOperand s b.asRead = node s [e, b.asRead] := by
    rw [appendOperand, if_neg (by simp [he])]
    rfl
  rw [hfold, List.map_cons, List.foldl_cons, hbinary, foldl_appendOperand_node hs _ (by simp)]
  rfl

theorem exists_readsAs_chain {s : Symbol α} (hs : s.Chains) :
    ∃ c, s.operator? = some (String.ofList [' ', c, ' ']) ∧
    symbolOf c = s ∧ ∀ {text : List Char} {e : Expr α} {args : List (Expr α)},
    ReadsAs .unary text e →
      (∀ a ∈ args, ReadsAs .unary a.text.toList a.asRead) →
      ReadsAs .expression (text ++ (links c args).flatMap Link.chars)
        (e.chain appendOperand (links c args)) := by
  have hlinks {r : Rule} {operators : List Char} {c : Char} (hc : c ∈ operators)
      {args : List (Expr α)}
      (h : ∀ a ∈ args, ReadsAs r a.text.toList a.asRead) :
      ∀ l ∈ links c args, l.Separates operators ∧ ReadsAs r l.text l.operand := by
    intro l hl
    obtain ⟨a, ha, rfl⟩ := List.mem_map.1 hl
    exact ⟨⟨hc, .single, .single⟩, h a ha⟩
  rcases hs with rfl | rfl | rfl | rfl
  · exact ⟨'+', rfl, rfl, fun h hargs =>
      sums.reads h.term (hlinks (by simp) fun a ha => (hargs a ha).term)⟩
  · exact ⟨'-', rfl, rfl, fun h hargs =>
      sums.reads h.term (hlinks (by simp) fun a ha => (hargs a ha).term)⟩
  · exact ⟨'*', rfl, rfl, fun h hargs => (products.reads h (hlinks (by simp) hargs)).ofTerm⟩
  · exact ⟨'/', rfl, rfl, fun h hargs => (products.reads h (hlinks (by simp) hargs)).ofTerm⟩

/-! ### Nodes -/

theorem toList_parens (text : String) :
    ("(" ++ text ++ ")").toList = '(' :: (text.toList ++ [')']) := by
  simp [String.toList_append]

theorem text_chain {s : Symbol α} {operator : String} (hs : s.Chains)
    (hop : s.operator? = some operator)
    (a b : Expr α) (rest : List (Expr α)) :
    (node s (a :: b :: rest)).text =
      "(" ++ operator.intercalate ((a :: b :: rest).map text) ++ ")" := by
  rw [text_node]
  rcases hs with rfl | rfl | rfl | rfl <;> cases hop <;> rfl

theorem toList_text_chain {s : Symbol α} {c : Char} (hs : s.Chains)
    (hop : s.operator? = some (String.ofList [' ', c, ' ']))
    (a b : Expr α) (rest : List (Expr α)) : (node s (a :: b :: rest)).text.toList =
      '(' :: ((a.text.toList ++ (links c (b :: rest)).flatMap Link.chars) ++ [')']) := by
  rw [text_chain hs hop, toList_parens, String.toList_intercalate, String.toList_ofList,
    List.map_map, List.map_cons, intercalate_cons, List.flatMap_map, links, List.flatMap_map]
  rfl

/-- A node keeps its symbol, unless it is a power that a bare minus is taken out of. -/
theorem asRead_eq {s : Symbol α} {args : List (Expr α)} (hconst : ∀ c, s ≠ .const c) :
    (node s args).asRead = node s (args.map asRead) ∨ s = .power ∧ ∃ a,
    (node s args).asRead = unary .sub a := by
  by_cases hpower : s = .power
  · subst hpower
    match args with
    | [] | [_] | _ :: _ :: _ :: _ =>
      rw [asRead, asReadAll_eq]
      exact .inl rfl
    | [a, b] =>
      show (binary .power a b).asRead = _ ∨ _ ∧ ∃ c, (binary .power a b).asRead = _
      rw [asRead_power]
      split
      · exact .inr ⟨rfl, _, rfl⟩
      · exact .inl rfl
  · exact .inl (asRead_node hconst hpower args)

theorem constantValue?_asRead {e : Expr α} (h : e.constantValue? = none) :
    e.asRead.constantValue? = none := by
  obtain ⟨s, args⟩ := e
  have hconst : ∀ c, s ≠ .const c := by
    rintro c rfl
    cases h
  rcases asRead_eq hconst with heq | ⟨-, a, heq⟩
  · rw [heq]
    cases s with
    | const c => exact absurd rfl (hconst c)
    | _ => rfl
  · rw [heq]
    rfl

theorem length_operands_constantAsRead (c : α) : (constantAsRead c).operands.length ≤ 1 := by
  unfold constantAsRead unsignedConstant
  split_ifs <;> split <;>
    simp [negated, constant, constantValue?, ofVariable, weighted, unary, operands]

theorem isChain_asRead {s : Symbol α} (hs : s.Chains) {e : Expr α} (h : e.isChain s = false) :
    e.asRead.isChain s = false := by
  rw [Bool.eq_false_iff, ne_eq] at h ⊢
  intro hchain
  obtain ⟨t, args⟩ := e
  by_cases hconst : ∃ c, t = .const c
  · obtain ⟨c, rfl⟩ := hconst
    have hread : (node (.const c) args).asRead = constantAsRead c := by
      rw [asRead]
      rfl
    have hlen := length_operands_constantAsRead c
    rw [hread] at hchain
    generalize constantAsRead c = e at hchain hlen
    obtain ⟨u, args⟩ := e
    have := ((isChain_node hs u args).1 hchain).2
    simp only [operands] at hlen
    omega
  · have hconst : ∀ c, t ≠ .const c := fun c hc => hconst ⟨c, hc⟩
    rcases asRead_eq hconst with heq | ⟨-, a, heq⟩
    · rw [heq, isChain_node hs] at hchain
      rw [isChain_node hs] at h
      exact h ⟨hchain.1, by simpa using hchain.2⟩
    · rw [heq, unary, isChain_node hs] at hchain
      simp at hchain

omit [Numeral α] in
theorem negated_of_constantValue? {e : Expr α} (h : e.constantValue? = none) :
    e.negated = unary .sub e := by
  rw [negated, h]

theorem readsAs_constant {c : α} (hread : ReadsBack c) :
    ReadsAs .unary (numberText c).toList (constantAsRead c) ∧
    (beginsSigned (numberText c).toList = false →
      ReadsAs .primary (numberText c).toList (constantAsRead c)) := by
  have h := readsAs_unsignedConstant hread
  have htext := eq_unsigned (numberText c).toList
  rw [constantAsRead]
  split_ifs with hsign
  · rw [if_pos hsign] at htext
    rw [htext]
    exact ⟨h.unary.negated .nil, nofun⟩
  · rw [if_neg hsign] at htext
    rw [htext]
    exact ⟨h.unary, fun _ => h⟩

theorem symbol_of_callSymbol? {s : Symbol α} {arity : Arity}
    (h : callSymbol? s.callName = some (s, arity)) :
    (∀ c, s ≠ .const c) ∧ s ≠ .power ∧ isIdentifier s.callName = true ∧ arity.accepts 0 = false ∧
      ∀ args : List String,
        s.textWith args = s.callName ++ "(" ++ ", ".intercalate args ++ ")" := by
  cases s with
  | var | const | add | sub | mul | div | power => cases h
  | subFunction name =>
    unfold callSymbol? at h
    split at h <;> cases h
  | _ =>
    cases h
    exact ⟨nofun, nofun, by rw [Symbol.callName]; decide, rfl, fun args => rfl⟩

theorem readsAs_call {s : Symbol α} {arity : Arity} {args : List (Expr α)}
    (hcall : callSymbol? s.callName = some (s, arity)) (harity : arity.accepts args.length = true)
    (hargs : ∀ a ∈ args, ReadsAs .unary a.text.toList a.asRead) :
    ReadsAs .primary (node s args).text.toList (node s args).asRead := by
  obtain ⟨hconst, hpower, hname, hnone, htext⟩ := symbol_of_callSymbol? hcall
  cases args with
  | nil =>
    rw [List.length_nil, hnone] at harity
    cases harity
  | cons a rest =>
    -- a blank stands before every argument but the first
    let items := rest.map fun d => (' ' :: d.text.toList, d.asRead)
    have hitems : ∀ p ∈ items, ReadsPadded p.1 p.2 := by
      intro p hp
      obtain ⟨d, hd, rfl⟩ := List.mem_map.1 hp
      exact ⟨[' '], _, [], .single, .nil, by simp, (hargs d (List.mem_cons_of_mem a hd)).expression⟩
    have happly (source : List Char) (t : Token Rule) :
        applyFunction source t s.callName (a.asRead :: items.map (·.2)) =
          .ok (node s (a :: rest)).asRead := by
      have hlen : (a.asRead :: items.map (·.2)).length = (a :: rest).length := by simp [items]
      unfold applyFunction
      rw [hcall, asRead_node hconst hpower]
      show (if arity.accepts _ then _ else _) = _
      rw [hlen, if_pos harity]
      simp [items]
    have hreads := ReadsAs.call hname .nil (hargs a (by simp)).expression.padded hitems happly
    have htoList : (node s (a :: rest)).text.toList =
        s.callName.toList ++ '(' :: (a.text.toList ++ (ReadsAs.argumentsText items ++ [')'])) := by
      rw [text_node, htext]
      simp only [String.toList_append, String.toList_intercalate, List.map_map, List.map_cons,
        intercalate_cons, ReadsAs.argumentsText, items, List.flatMap_map, List.append_assoc]
      rfl
    rw [htoList]
    exact hreads

omit [Numeral α] in
theorem Written.eq_constant {e : Expr α} (h : e.Written) {c : α} (hc : e.constantValue? = some c) :
    e = constant c := by
  cases h with
  | const => cases hc; rfl
  | chain hs =>
    rename_i s a args _ _ _
    cases s with
    | const => rcases hs with hs | hs | hs | hs <;> cases hs
    | _ => cases hc
  | call hcall =>
    rename_i s _ _ _ _
    cases s with
    | const => cases hcall
    | _ => cases hc
  | _ => cases hc

/-- What the text of a written expression is read as. -/
theorem Written.readsAs {e : Expr α} (h : e.Written) (hone : ((1 : α) == 1) = true)
    (hread : ∀ c, constant c ∈ e.preorder → ReadsBack c) :
    ReadsAs .unary e.text.toList e.asRead ∧
    (e.bareSigned? = none → ReadsAs .primary e.text.toList e.asRead) := by
  have hprimary {text : List Char} {e : Expr α} (h : ReadsAs .primary text e) {P : Prop} :
      ReadsAs .unary text e ∧ (P → ReadsAs .primary text e) := ⟨h.unary, fun _ => h⟩
  have hparens {text : List Char} {e : Expr α} (h : ReadsAs .expression text e) {P : Prop} :
      ReadsAs .unary ('(' :: (text ++ [')'])) e ∧
      (P → ReadsAs .primary ('(' :: (text ++ [')'])) e) :=
    hprimary h.padded.parens
  induction h with
  | @var name hne hquote =>
    have htext : (ofVariable name : Expr α).text = nameText name := by
      show (if ((1 : α) == 1) = true then _ else _) = _
      rw [if_pos hone]
    rw [htext]
    exact hprimary (ReadsAs.ofName hne hquote)
  | const c =>
    obtain ⟨hunary, hnumber⟩ := readsAs_constant (hread c (mem_preorder_self _))
    have htext : (constant c).text = if c < 0 then "(" ++ numberText c ++ ")" else numberText c :=
      rfl
    rw [htext, asRead_constant]
    split_ifs with hc
    · rw [toList_parens]
      exact hparens hunary.expression
    · refine ⟨hunary, fun hbare => hnumber ?_⟩
      rw [Bool.eq_false_iff]
      intro hsign
      simp [bareSigned?, constant, constantValue?, Option.filter, IsBareSigned, hc, hsign] at hbare
  | @neg a ha h ih =>
    have htext : (Expr.unary .sub a).text.toList = '(' :: (('-' :: a.text.toList) ++ [')']) := by
      show ("(-" ++ a.text ++ ")").toList = _
      simp [String.toList_append]
    have hasRead : (Expr.unary .sub a).asRead = a.asRead.negated := by
      rw [negated_of_constantValue? (constantValue?_asRead ha)]
      rfl
    have hoperand := (ih fun c hc => hread c (mem_preorder_of_mem (by simp) hc)).1
    rw [htext, hasRead]
    exact hparens (hoperand.negated .nil).expression
  | @power a b ha hb iha ihb =>
    have hoperand := iha fun c hc => hread c (mem_preorder_of_mem (by simp) hc)
    have hexponent := (ihb fun c hc => hread c (mem_preorder_of_mem (by simp) hc)).1
    have htext : (binary .power a b).text.toList =
        '(' :: ((a.text.toList ++ ([' '] ++ '^' :: ([' '] ++ b.text.toList))) ++ [')']) := by
      show ("(" ++ " ^ ".intercalate [a.text, b.text] ++ ")").toList = _
      rw [toList_parens, String.toList_intercalate]
      simp [List.intercalate]
    rw [htext, asRead_power]
    split
    · rename_i c hbare
      -- the sign of a bare constant is read last, after the power
      obtain ⟨hconst, hc⟩ := Option.filter_eq_some_iff.1 hbare
      obtain ⟨hnonneg, hsign⟩ := of_decide_eq_true hc
      obtain rfl := ha.eq_constant hconst
      have hbase :=
        readsAs_unsignedConstant (hread c (mem_preorder_of_mem (by simp) (mem_preorder_self _)))
      have hnumber : (constant c).text.toList = '-' :: unsigned (numberText c).toList := by
        show (if c < 0 then _ else numberText c).toList = _
        rw [if_neg hnonneg, eq_unsigned (numberText c).toList, if_pos hsign]
        rfl
      rw [hnumber, List.cons_append]
      exact hparens ((hbase.power .single .single hexponent).negated .nil).expression
    · exact hparens ((hoperand.2 ‹_›).power .single .single hexponent).expression
  | @chain s a args hs ha hne hall ih =>
    -- the operands are read one after the other and joined to a chain, as they stood
    obtain ⟨b, rest, rfl⟩ := List.exists_cons_of_ne_nil hne
    have hunary : ∀ d ∈ a :: b :: rest, ReadsAs .unary d.text.toList d.asRead :=
      fun d hd => (ih d hd fun c hc => hread c (mem_preorder_of_mem hd hc)).1
    obtain ⟨c, hop, hc, hreads⟩ := exists_readsAs_chain hs
    have hasRead : (node s (a :: b :: rest)).asRead =
        a.asRead.chain Expr.appendOperand (links c (b :: rest)) := by
      rw [chain_links hs hc (isChain_asRead hs ha), asRead_node]
      · rfl
      · rintro c rfl
        rcases hs with hs | hs | hs | hs <;> cases hs
      · rintro rfl
        rcases hs with hs | hs | hs | hs <;> cases hs
    rw [toList_text_chain hs hop, hasRead]
    exact hparens (hreads (hunary a (by simp)) fun d hd => hunary d (List.mem_cons_of_mem a hd))
  | @call s arity args hcall harity hall ih =>
    exact hprimary (readsAs_call hcall harity fun a ha =>
      (ih a ha fun c hc => hread c (mem_preorder_of_mem ha hc)).1)

/-! ### Whole texts -/

/-- The text of an expression is read as the expression. -/
structure Recoverable (e : Expr α) : Prop where
  hasDecimal : ∀ c, constant c ∈ e.preorder → HasDecimal c
  base : ∀ c n, binary .power (constant c) n ∈ e.preorder → ¬ IsBareSigned c

theorem recoverable_node {s : Symbol α} {args : List (Expr α)} : (node s args).Recoverable ↔
    (∀ c, node s args = constant c → HasDecimal c) ∧
      (∀ c n, node s args = binary .power (constant c) n → ¬ IsBareSigned c) ∧ ∀ a ∈ args,
      a.Recoverable := by
  constructor
  · intro h
    refine ⟨fun c hc => h.hasDecimal c ?_, fun c n hc => h.base c n ?_, fun a ha =>
      ⟨fun c hc => ?_, fun c n hc => ?_⟩⟩
    · rw [← hc]
      exact mem_preorder_self _
    · rw [← hc]
      exact mem_preorder_self _
    · exact h.hasDecimal c (mem_preorder_of_mem ha hc)
    · exact h.base c n (mem_preorder_of_mem ha hc)
  · rintro ⟨hconst, hbase, hargs⟩
    constructor
    · intro c hc
      rw [preorder_node, List.mem_cons, List.mem_flatMap] at hc
      rcases hc with hc | ⟨a, ha, hc⟩
      · exact hconst c hc.symm
      · exact (hargs a ha).hasDecimal c hc
    · intro c n hc
      rw [preorder_node, List.mem_cons, List.mem_flatMap] at hc
      rcases hc with hc | ⟨a, ha, hc⟩
      · exact hbase c n hc.symm
      · exact (hargs a ha).base c n hc

theorem node_eq_self_iff {s : Symbol α} {args : List (Expr α)} :
    node s (args.map asRead) = node s args ↔ ∀ a ∈ args, a.asRead = a := by
  rw [node.injEq, eq_self_iff_true, true_and]
  conv_lhs => rw [← List.map_id args, List.map_map, Function.comp_id]
  exact List.map_inj_left

theorem Written.asRead_eq_self_iff {e : Expr α} (h : e.Written)
    (hread : ∀ c, constant c ∈ e.preorder → ReadsBack c) : e.asRead = e ↔ e.Recoverable := by
  have hplain {s : Symbol α} {args : List (Expr α)} (hconst : ∀ c, s ≠ .const c)
      (hpower : s ≠ .power)
      (ih : ∀ a ∈ args, a.asRead = a ↔ a.Recoverable) : (node s args).asRead = node s args ↔
      (node s args).Recoverable := by
    rw [asRead_node hconst hpower, node_eq_self_iff, recoverable_node, forall₂_congr ih]
    refine ⟨fun h => ⟨fun c hc => ?_, fun c n hc => ?_, h⟩, fun h => h.2.2⟩
    · cases hc
      exact absurd rfl (hconst c)
    · cases hc
      exact absurd rfl hpower
  induction h with
  | var => exact hplain nofun nofun (by simp)
  | const c =>
    rw [asRead_constant, constantAsRead_eq_self_iff (hread c (mem_preorder_self _)), constant,
      recoverable_node]
    refine ⟨fun h => ⟨fun d hd => ?_, nofun, by simp⟩, fun h => h.1 c rfl⟩
    cases hd
    exact h
  | @neg a _ _ ih =>
    refine hplain nofun nofun fun b hb => ?_
    obtain rfl := List.mem_singleton.1 hb
    exact ih fun c hc => hread c (mem_preorder_of_mem (by simp) hc)
  | @power a b ha _ iha ihb =>
    have hbase := iha fun c hc => hread c (mem_preorder_of_mem (by simp) hc)
    have hexponent := ihb fun c hc => hread c (mem_preorder_of_mem (by simp) hc)
    have hnode : (binary .power a b).Recoverable ↔ _ := recoverable_node
    rw [asRead_power, hnode]
    split
    · rename_i c hbare
      obtain ⟨hconst, hc⟩ := Option.filter_eq_some_iff.1 hbare
      obtain rfl := ha.eq_constant hconst
      -- a bare negative base comes back as a negated power
      exact ⟨nofun, fun h => absurd (of_decide_eq_true hc) (h.2.1 c b rfl)⟩
    · rename_i hbare
      have heq : binary .power a.asRead b.asRead = binary .power a b ↔
          a.Recoverable ∧ b.Recoverable := by
        simp [binary, hbase, hexponent]
      rw [heq]
      refine ⟨fun h => ⟨nofun, ?_, by simpa using h⟩, fun h => by simpa using h.2.2⟩
      rintro c n ⟨⟩ hc
      simp [bareSigned?, constant, constantValue?, Option.filter, hc] at hbare
  | @chain s a args hs _ _ _ ih =>
    refine hplain ?_ ?_ fun b hb => ih b hb fun c hc => hread c (mem_preorder_of_mem hb hc)
    · rintro c rfl
      rcases hs with hs | hs | hs | hs <;> cases hs
    · rintro rfl
      rcases hs with hs | hs | hs | hs <;> cases hs
  | @call s arity args hcall _ _ ih =>
    obtain ⟨hconst, hpower, -⟩ := symbol_of_callSymbol? hcall
    exact hplain hconst hpower fun b hb => ih b hb fun c hc => hread c (mem_preorder_of_mem hb hc)

theorem rule_eq_of_yields {r : Rule} {m n : Mark} {t : Token Rule}
    (h : modelGrammar.Yields false (.rule r) m (some (n, [t]))) : t.rule = r := by
  obtain ⟨ts, -, ht⟩ := Grammar.yields_rule_some h
  cases ht
  rfl

theorem ReadsPadded.file {text : List Char} {e : Expr α} (h : ReadsPadded text e) : ∃ file t,
    parseRule (α := α) .expressionFile text = .ok file ∧
    file.parts.find? (·.rule == .expression) = some t ∧
      ∀ source, ofToken source t = .ok e := by
  obtain ⟨n, t, ht, hn, hread⟩ := h.yields (m := .start text) (List.append_nil text).symm .nil
  have hfile : modelGrammar.Yields false (.rule .expressionFile) (.start text)
      (some (skipBlanks isBlank n, [.node .expressionFile (.start text) (skipBlanks isBlank n)
        [t, .node .endOfInput (skipBlanks isBlank n) (skipBlanks isBlank n) []]])) :=
    .rule (.seq (.atStart rfl)
      (.seq yields_skipped (.seq ht (.seq yields_skipped (.rule (.atEnd hn))))))
  refine ⟨_, t, parseRule_eq_ok.2 ⟨_, hfile⟩, ?_, hread⟩
  simp [Token.parts, rule_eq_of_yields ht]

/-- A source is read exactly if its text is, and the limits allow both. -/
theorem read_eq_ok {limits : Limits} {source : String} {e : Expr α} : read limits source = .ok e ↔
    source.utf8ByteSize ≤ limits.sourceBytes ∧
      (∃ file t, parseRule (α := α) .expressionFile source.toList = .ok file ∧
        file.parts.find? (·.rule == .expression) = some t ∧ ofToken source.toList t = .ok e) ∧
        limits.Allows e := by
  rw [read, bind_eq_ok]
  constructor
  · rintro ⟨⟨⟩, hbytes, h⟩
    obtain ⟨file, hfile, h⟩ := bind_eq_ok.1 h
    cases ht : file.parts.find? (·.rule == .expression) with
    | none =>
      rw [ht] at h
      cases h
    | some t =>
      rw [ht] at h
      obtain ⟨e, he, h⟩ := bind_eq_ok.1 h
      obtain ⟨⟨⟩, hallows, h⟩ := bind_eq_ok.1 h
      cases h
      exact ⟨Limits.checkSource_eq_ok.1 hbytes, ⟨file, t, hfile, ht, he⟩, hallows⟩
  · rintro ⟨hbytes, ⟨file, t, hfile, ht, he⟩, hallows⟩
    refine ⟨(), Limits.checkSource_eq_ok.2 hbytes, bind_eq_ok.2 ⟨file, hfile, ?_⟩⟩
    rw [ht]
    exact bind_eq_ok.2 ⟨e, he, bind_eq_ok.2 ⟨(), hallows, rfl⟩⟩

theorem written_of_read {limits : Limits} {source : String} {e : Expr α}
    (h : read limits source = .ok e) : e.Written := by
  obtain ⟨-, ⟨file, t, hfile, ht, he⟩, -⟩ := read_eq_ok.1 h
  obtain ⟨n, hyields⟩ := parseRule_eq_ok.1 hfile
  obtain ⟨ts, -, hparts⟩ := Grammar.yields_rule_some hyields
  cases hparts
  have hfile := (hyields.occurs _ (List.mem_singleton_self _)).derived
  cases hfile with
  | node _ hts => exact written_of_ofToken (hts t (List.mem_of_find?_eq_some ht)) he

theorem read_text_eq_ok {limits : Limits} {e : Expr α} (h : e.Written)
    (hone : ((1 : α) == 1) = true) (hread : ∀ c, constant c ∈ e.preorder → ReadsBack c)
    (hbytes : e.text.utf8ByteSize ≤ limits.sourceBytes)
    (hallows : limits.Allows e) : read limits e.text = .ok e ↔ e.Recoverable := by
  obtain ⟨file, t, hfile, ht, htoken⟩ := (h.readsAs hone hread).1.expression.padded.file
  rw [← h.asRead_eq_self_iff hread, read_eq_ok]
  constructor
  · rintro ⟨-, ⟨file', t', hfile', ht', htoken'⟩, -⟩
    rw [hfile] at hfile'
    cases hfile'
    rw [ht] at ht'
    cases ht'
    rw [htoken] at htoken'
    exact Except.ok.inj htoken'
  · intro heq
    exact ⟨hbytes, ⟨file, t, hfile, ht, by rw [htoken, heq]⟩, hallows⟩

end

/-! ### Doubles -/

section

theorem hasDecimal_iff {c : Float} : HasDecimal c ↔ c.isFinite = true := by
  show (if c.isFinite = true then _ else none).isSome = true ↔ _
  split <;> simp [*]

theorem negative_shortest (tie : TieRule) (negative : Bool) (significand scale : ℕ) :
    (Double.shortest tie negative significand scale).negative = negative := by
  unfold Double.shortest
  split <;> rfl

theorem beginsSigned_numberText {c : Float} (h : c.isFinite = true) :
    beginsSigned (numberText c).toList = Double.isNegative c := by
  obtain ⟨d, hd⟩ := Option.isSome_iff_exists.1 (hasDecimal_iff.2 h)
  have hnegative : d.negative = Double.isNegative c := by
    have hshortest : (if c.isFinite = true then _ else none) = some d := hd
    rw [if_pos h] at hshortest
    cases hshortest
    exact negative_shortest ..
  obtain ⟨cs, hcs, htext⟩ := toList_write_plain d
  rw [numberText, hd, htext, ← hnegative]
  cases d.negative with
  | true => rfl
  | false => exact beginsSigned_of_isPlainNumeral hcs

/-- The text of an expression that was read is read as the same expression exactly if every constant
is finite, and one that is the base of a power has a minus only if it is less than zero. A constant
that is not finite is written as a word, and a negative zero has no parentheses around its minus. -/
theorem read_text_iff {limits limits' : Limits} {source : String} {e : Expr Float}
    (h : read limits source = .ok e)
    (hread : ∀ c : Float,
      constant c ∈ e.preorder → c.isFinite = true → readNumber (numberText c).toList = .ok c)
    (hbytes : e.text.utf8ByteSize ≤ limits'.sourceBytes) (hallows : limits'.Allows e) :
    read limits' e.text = .ok e ↔
      (∀ c : Float, constant c ∈ e.preorder → c.isFinite = true) ∧
        ∀ (c : Float) (n : Expr Float),
          binary .power (constant c) n ∈ e.preorder → Double.isNegative c = true → c < 0 := by
  have hreads : ∀ c : Float, constant c ∈ e.preorder → ReadsBack c :=
    fun c hc hdec => hread c hc (hasDecimal_iff.1 hdec)
  rw [read_text_eq_ok (written_of_read h) (by decide) hreads hbytes hallows]
  constructor
  -- a minus in front of the text is a negative sign, which a negative zero has without being less
  · rintro ⟨hdec, hbase⟩
    refine ⟨fun c hc => hasDecimal_iff.1 (hdec c hc), fun c n hc hneg => ?_⟩
    by_contra hlt
    have hmem : constant c ∈ e.preorder :=
      mem_preorder_trans hc (mem_preorder_of_mem (by simp) (mem_preorder_self _))
    refine hbase c n hc ⟨hlt, ?_⟩
    rwa [beginsSigned_numberText (hasDecimal_iff.1 (hdec c hmem))]
  · rintro ⟨hfinite, hbase⟩
    refine ⟨fun c hc => hasDecimal_iff.2 (hfinite c hc), fun c n hc ⟨hlt, hsign⟩ =>
      hlt (hbase c n hc ?_)⟩
    have hmem : constant c ∈ e.preorder :=
      mem_preorder_trans hc (mem_preorder_of_mem (by simp) (mem_preorder_self _))
    rwa [beginsSigned_numberText (hfinite c hmem)] at hsign

/-- The expression `-2.5 * x - 'flow rate' ^ 2 / (y - 1)`. -/
def scaledLessQuotient : Expr Float :=
  binary .sub (binary .mul (constant (-2.5)) (ofVariable "x"))
    (binary .div (binary .power (ofVariable "flow rate") (constant 2))
      (binary .sub (ofVariable "y") (constant 1)))

theorem read_text_scaledLessQuotient :
    read {} "-2.5*x - 'flow rate'^2 / (y - 1)" = .ok scaledLessQuotient ∧
      read {} scaledLessQuotient.text = .ok scaledLessQuotient := by
  have hconst (c : Float) (hc : constant c ∈ scaledLessQuotient.preorder) :
      c = -2.5 ∨ c = 2 ∨ c = 1 := by
    simpa [scaledLessQuotient, binary, constant, ofVariable, weighted, preorder, preorderAll]
      using hc
  have hread : read {} "-2.5*x - 'flow rate'^2 / (y - 1)" = .ok scaledLessQuotient :=
    toOption_eq_some.1 (by decide +kernel)
  refine ⟨hread, (read_text_iff hread ?_ (by decide +kernel) (by decide +kernel)).2 ⟨?_, ?_⟩⟩
  · intro c hc _
    rcases hconst c hc with rfl | rfl | rfl <;> exact toOption_eq_some.1 (by decide +kernel)
  · intro c hc
    rcases hconst c hc with rfl | rfl | rfl <;> decide +kernel
  · intro c n hc
    simp [scaledLessQuotient, binary, constant, ofVariable, weighted, preorder, preorderAll] at hc

/-- The minus of a negative zero is read as that of the power. -/
theorem read_text_negativeZeroSquared : ∃ e e' : Expr Float,
    read {} "(-0) ^ 2" = .ok e ∧ read {} e.text = .ok e' ∧ e' ≠ e :=
  ⟨binary .power (constant (-0)) (constant 2), unary .sub (binary .power (constant 0) (constant 2)),
    toOption_eq_some.1 (by decide +kernel), toOption_eq_some.1 (by decide +kernel), by
  decide +kernel⟩

end

end ModalBounds.Expr
