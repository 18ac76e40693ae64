import ModalBounds.Proofs.Evaluation.Outcome
import ModalBounds.Proofs.Interval.Built
import ModalBounds.Proofs.Syntax.Spelling
import ModalBounds.Proofs.Syntax.WellFormed

/-!
# What folding leaves alone

When a source is read, a chain of one operator becomes one node, and a minus before a constant
becomes part of it. Neither can be told from the nodes that the source spells literally by
evaluating them (`Equivalent`): an operator with many operands combines them from the left
(`equivalent_appendOperand`), and the negative of a point is the point of the negative value
(`equivalent_negated`). So evaluation comes to the same for a whole source (`evaluate_of_read`).
-/

namespace ModalBounds.Expr

section
variable {α : Type} [Elementary α] {s : Symbol α} {env : Environment α} {a b c e e' : Expr α}
  {args args' : List (Expr α)}

/-! ### Expressions that evaluate alike -/

/-- Two expressions have the same variables, and the same interval over all ranges. Each of their
symbols has an operation, or neither does it of the one nor of the other. -/
structure Equivalent (e e' : Expr α) : Prop where
  supported : e.isSupported = true ↔ e'.isSupported = true
  occurrences : e.variableOccurrences = e'.variableOccurrences
  interval (env : Environment α) : e.interval env = e'.interval env

theorem Equivalent.trans (h : Equivalent a b) (h' : Equivalent b c) : Equivalent a c :=
  ⟨h.supported.trans h'.supported, h.occurrences.trans h'.occurrences,
    fun env => (h.interval env).trans (h'.interval env)⟩

omit [Elementary α] in
theorem isSupported_node : (node s args).isSupported = true ↔
    (Opcode.ofSymbol? s).isSome = true ∧ ∀ a ∈ args, a.isSupported = true := by
  simp only [isSupported_iff]
  exact everywhere_node

theorem intervals_append (args args' : List (Expr α)) : intervals env (args ++ args') =
    (do return (← intervals env args) ++ (← intervals env args')) := by
  induction args with
  | nil =>
    show _ = intervals env args' >>= pure
    rw [bind_pure]
    rfl
  | cons a args ih =>
    rw [List.cons_append, intervals, ih, intervals]
    simp

theorem Equivalent.node (s : Symbol α) (h : List.Forall₂ Equivalent args args') :
    Equivalent (.node s args) (.node s args') := by
  refine ⟨?_, ?_, fun env => ?_⟩
  · rw [isSupported_node, isSupported_node]
    refine and_congr_right fun _ => ⟨fun hall a' ha' => ?_, fun hall a ha => ?_⟩
    · obtain ⟨a, ha, heq⟩ := exists_of_forall₂ h.flip a' ha'
      exact heq.supported.1 (hall a ha)
    · obtain ⟨a', ha', heq⟩ := exists_of_forall₂ h a ha
      exact heq.supported.2 (hall a' ha')
  · have hargs : args.flatMap variableOccurrences = args'.flatMap variableOccurrences := by
      induction h with
      | nil => rfl
      | cons ha _ ih => rw [List.flatMap_cons, List.flatMap_cons, ha.occurrences, ih]
    rw [variableOccurrences_node, variableOccurrences_node, hargs]
  · rw [Expr.interval, Expr.interval, intervals_congr (h.imp fun _ _ ha => ha.interval env)]

/-- Expressions that are equivalent evaluate alike, if they can be compiled. -/
theorem Equivalent.evaluate_eq (h : Equivalent e e') (he : e.WellFormed) (he' : e'.WellFormed)
    (hsupported : e.isSupported = true) (env : Environment α) :
    e.evaluate env = e'.evaluate env := by
  obtain ⟨p, hp⟩ := he.exists_compile_iff.2 hsupported
  obtain ⟨p', hp'⟩ := he'.exists_compile_iff.2 (h.supported.1 hsupported)
  rw [Expr.evaluate_eq hp, Expr.evaluate_eq hp', h.occurrences, h.interval]

/-! ### Chains -/

/-- An operator with one more operand is applied to what it comes to without it, and to this
operand. -/
theorem exists_interval_append (hs : s.Chains) {xs : List (ModalInterval α)}
    (hlen : 2 ≤ xs.length) :
    ∃ x, s.interval env xs = .ok x ∧ ∀ y, s.interval env (xs ++ [y]) = s.interval env [x, y] := by
  obtain ⟨x₁, x₂, xs, rfl⟩ : ∃ x₁ x₂ rest, xs = x₁ :: x₂ :: rest := by
    match xs, hlen with
    | x₁ :: x₂ :: rest, _ => exact ⟨x₁, x₂, rest, rfl⟩
  rcases hs with rfl | rfl | rfl | rfl <;>
    exact ⟨_, rfl, fun y => by simp [Symbol.interval, List.foldl_append]⟩

theorem interval_binary (s : Symbol α) (a c : Expr α) (env : Environment α) :
    (binary s a c).interval env =
    (do let x ← a.interval env; let y ← c.interval env; s.interval env [x, y]) := by
  simp [binary, interval, intervals]
  rfl

theorem interval_node_append (hs : s.Chains) (hlen : 2 ≤ args.length) (c : Expr α)
    (env : Environment α) :
    (node s (args ++ [c])).interval env = (binary s (node s args) c).interval env := by
  have hnode : (node s (args ++ [c])).interval env =
      (do let xs ← intervals env args; let y ← c.interval env; s.interval env (xs ++ [y])) := by
    rw [interval, intervals_append]
    simp [intervals]
    rfl
  rw [hnode, interval_binary, interval]
  -- An operand that fails does so before the node is reached, on both sides.
  cases hargs : intervals env args with
  | error => rfl
  | ok xs =>
    obtain ⟨x, hx, hrest⟩ : ∃ x, s.interval env xs = .ok x ∧ ∀ y,
        s.interval env (xs ++ [y]) = s.interval env [x, y] :=
      exists_interval_append hs ((intervals_eq_ok.1 hargs).length_eq ▸ hlen)
    show (do let y ← c.interval env; s.interval env (xs ++ [y])) =
      (do let x ← s.interval env xs; let y ← c.interval env; s.interval env [x, y])
    rw [hx]
    exact bind_congr hrest

theorem equivalent_appendOperand (hs : s.Chains) (a c : Expr α) :
    Equivalent (a.appendOperand s c) (binary s a c) := by
  unfold appendOperand
  split
  · rename_i hchain
    obtain ⟨t, args⟩ := a
    obtain ⟨rfl, hlen⟩ := (isChain_node hs t args).1 hchain
    refine ⟨?_, ?_, interval_node_append hs hlen c⟩
    · show (node t (args ++ [c])).isSupported = true ↔ (node t [node t args, c]).isSupported = true
      simp only [isSupported_node, List.forall_mem_append, List.forall_mem_cons]
      tauto
    · show (node t (args ++ [c])).variableOccurrences =
          (node t [node t args, c]).variableOccurrences
      have hname : (node t []).variableName? = none := by
        rcases hs with rfl | rfl | rfl | rfl <;> rfl
      simp only [variableOccurrences_node, hname, List.flatMap_append, List.flatMap_cons,
        List.flatMap_nil, Option.toList_none, List.append_nil]
  · exact ⟨Iff.rfl, rfl, fun _ => rfl⟩

end

/-! ### Negatives -/

section
variable {e e' : Expr Float} {v : Float}

theorem isNaN_of_numeral? {text : List Char} (h : numeral? text = some v) : v.isNaN = false := by
  obtain ⟨d, -, rfl⟩ := Option.map_eq_some_iff.1 h
  exact Double.isNaN_ofDecimal d

theorem equivalent_negated (h : e.Written)
    (hdefined : ∀ v, e.constantValue? = some v → v.isNaN = false) :
    Equivalent e.negated (unary .sub e) := by
  unfold negated
  split
  · rename_i v hv
    obtain rfl := h.eq_constant hv
    refine ⟨?_, rfl, fun env => ?_⟩
    · simp [constant, unary, isSupported_node, Opcode.ofSymbol?]
    · show Except.ok (ModalInterval.point (-v)) = Except.ok (-ModalInterval.point v)
      rw [ModalInterval.neg_point (hdefined v hv)]
  · exact ⟨Iff.rfl, rfl, fun _ => rfl⟩

theorem constantValue?_negated (h : e.negated.constantValue? = some v) :
    ∃ u, e.constantValue? = some u ∧ v = -u := by
  unfold negated at h
  split at h
  · cases h
    exact ⟨_, ‹_›, rfl⟩
  · cases h

theorem constantValue?_appendOperand {s : Symbol Float} (hs : s.Chains) {c : Expr Float} :
    (e.appendOperand s c).constantValue? = none := by
  unfold appendOperand
  split <;> rcases hs with rfl | rfl | rfl | rfl <;> rfl

theorem constantValue?_of_callSymbol? {name : String} {s : Symbol Float} {arity : Arity}
    {args : List (Expr Float)}
    (h : callSymbol? name = some (s, arity)) : (node s args).constantValue? = none := by
  unfold callSymbol? at h
  split at h <;> cases h <;> rfl

/-! ### Whole sources -/

/-- An expression that could have been read, and another one that evaluates alike. -/
structure Unfolds (e e' : Expr Float) : Prop where
  written : e.Written
  defined : ∀ v, e.constantValue? = some v → v.isNaN = false
  wellFormed : e'.WellFormed
  equivalent : Equivalent e e'

theorem keep_unfolds : Assembly.Keep .folding .literal Unfolds where
  number {text v} hv := by
    refine ⟨.const v, fun u hu => ?_, Everywhere.const holdsOfOperations_fits v, Iff.rfl,
      rfl, fun _ => rfl⟩
    cases hu
    exact isNaN_of_numeral? hv
  name hne hquote :=
    ⟨.var hne hquote, nofun, (Written.var hne hquote).wellFormed, Iff.rfl, rfl, fun _ => rfl⟩
  call {name s arity args args'} hcall harity hall := by
    refine ⟨written_call hcall harity fun a ha => ?_, fun v hv => ?_,
      everywhere_node.2 ⟨fits_of_callSymbol? hcall ?_, fun a' ha' => ?_⟩,
      .node s (hall.imp fun _ _ h => h.equivalent)⟩
    · obtain ⟨a', -, ha⟩ := exists_of_forall₂ hall a ha
      exact ha.written
    · rw [constantValue?_of_callSymbol? hcall] at hv
      cases hv
    · rwa [← hall.length_eq]
    · obtain ⟨a, -, ha⟩ := exists_of_forall₂ hall.flip a' ha'
      exact ha.wellFormed
  power ha hc := ⟨.power ha.written hc.written, nofun,
    Everywhere.power (fits_of_takes ⟨_, rfl, rfl⟩) ha.wellFormed hc.wellFormed,
    .node .power (.cons ha.equivalent (.cons hc.equivalent .nil))⟩
  negate {a a'} ha := by
    refine ⟨ha.written.negated, fun v hv => ?_, Everywhere.neg holdsOfOperations_fits ha.wellFormed,
      (equivalent_negated ha.written ha.defined).trans (.node .sub (.cons ha.equivalent .nil))⟩
    obtain ⟨u, hu, rfl⟩ := constantValue?_negated hv
    rw [Double.isNaN_neg_eq]
    exact ha.defined u hu
  join {s a a' c c'} hs ha hc := by
    refine ⟨ha.written.appendOperand hs hc.written, fun v hv => ?_, everywhere_node.2 ⟨?_, ?_⟩,
      (equivalent_appendOperand hs a c).trans
        (.node s (.cons ha.equivalent (.cons hc.equivalent .nil)))⟩
    · exact nomatch (constantValue?_appendOperand hs).symm.trans hv
    · rcases hs with rfl | rfl | rfl | rfl <;> exact fits_of_takes ⟨_, rfl, rfl⟩
    · exact Everywhere.forall_pair ha.wellFormed hc.wellFormed

/-- What a source is read as evaluates as what it spells literally: a node with one operand for
every minus, and one with two for every operator. -/
theorem evaluate_of_read {limits : Limits} {source : String} (h : read limits source = .ok e)
    (hsupported : e.isSupported = true) :
    (∃ e' : Expr Float, Spells .literal .expressionFile source.toList e') ∧
    ∀ e' : Expr Float, Spells .literal .expressionFile source.toList e' → ∀ env,
      e.evaluate env = e'.evaluate env := by
  obtain ⟨-, hspells, -⟩ := read_eq_ok_iff_spells.1 h
  refine ⟨?_, fun e' he' env => ?_⟩
  · obtain ⟨e', he', -⟩ := hspells.exists_related keep_unfolds
    exact ⟨e', he'⟩
  · -- The literal text folds to some expression, and what is read is the only one.
    obtain ⟨e'', he'', hunfolds⟩ := he'.exists_related keep_unfolds.symm
    obtain rfl := he''.unique hspells
    exact hunfolds.equivalent.evaluate_eq hunfolds.written.wellFormed hunfolds.wellFormed
      hsupported env

/-- What `x - -2 - y` is read as. -/
def foldedDifference : Expr Float := node .sub [ofVariable "x", constant (-2), ofVariable "y"]

/-- What `x - -2 - y` spells literally. -/
def literalDifference : Expr Float :=
  binary .sub (binary .sub (ofVariable "x") (unary .sub (constant 2))) (ofVariable "y")

theorem spells_literalDifference :
    Spells .literal .expressionFile "x - -2 - y".toList literalDifference := by
  have hterm {text : List Char} {e : Expr Float} (h : Spells .literal .unary text e) :
      Spells .literal .term text e := by
    simpa [chain] using Spells.product h (List.forall_mem_nil _) (List.forall_mem_nil _)
  have hname (name : String) (h : isIdentifier name = true) :
      Spells .literal .term name.toList (ofVariable name : Expr Float) :=
    hterm (.primary (.identifier h))
  have htwo : Spells .literal .unary ['-', '2'] (unary .sub (constant (2 : Float))) :=
    .minus .nil (.primary (.number (.inl (.inl (by simp [IsDigits]))) (by decide +kernel)))
  let links : List (Link Float) := [⟨[' '], '-', [' '], ['-', '2'], unary .sub (constant 2)⟩,
    ⟨[' '], '-', [' '], "y".toList, ofVariable "y"⟩]
  have hlinks : ∀ l ∈ links, l.Separates ['+', '-'] ∧ Spells .literal .term l.text l.operand :=
    List.forall_mem_cons.2 ⟨⟨⟨by simp, .single, .single⟩, hterm htwo⟩,
      List.forall_mem_singleton.2 ⟨⟨by simp, .single, .single⟩, hname "y" (by decide)⟩⟩
  have hsum := Spells.sum (hname "x" (by decide)) (fun l hl => (hlinks l hl).1) fun l hl =>
    (hlinks l hl).2
  exact Spells.padded .nil .nil hsum

theorem evaluate_of_read_foldedDifference : read {} "x - -2 - y" = .ok foldedDifference ∧
    foldedDifference.isSupported = true ∧
    Spells .literal .expressionFile "x - -2 - y".toList literalDifference ∧
    ∀ env, foldedDifference.evaluate env = literalDifference.evaluate env := by
  have hread : read {} "x - -2 - y" = .ok foldedDifference := toOption_eq_some.1 (by decide +kernel)
  have hsupported : foldedDifference.isSupported = true := rfl
  exact ⟨hread, hsupported, spells_literalDifference,
    (evaluate_of_read hread hsupported).2 _ spells_literalDifference⟩

end

end ModalBounds.Expr
