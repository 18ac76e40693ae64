import Mathlib
import ModalBounds.Proofs.Expr.Everywhere
import ModalBounds.Proofs.Expr.Occurrence

/-!
# Expressions that can be evaluated

`e.Evaluable V E` says that every symbol of `e` takes its operands, that only variables in `V`
occur, and that only expressions in `E` stand as exponents. Expressions that compile are those
evaluable for some `V` and `E` (`exists_compile_iff`). The rules for derivatives build nothing else
(`Evaluable.derivativeAt`); all that can fail on the way is an exponent that is no integer constant.
-/

namespace ModalBounds

namespace Expr

section
variable {α : Type}

/-- A node that can be evaluated: its symbol takes its operands, its variable is in `V`, and its
exponent in `E`. -/
structure NodeEvaluable (V : Set String) (E : Set (Expr α)) (e : Expr α) : Prop where
  takes : e.symbol.Takes e.operands.length
  name_mem : ∀ x, e.variableName? = some x → x ∈ V
  exponent_mem : e.symbol = .power → ∀ n ∈ e.operands.tail, n ∈ E

def Evaluable (V : Set String) (E : Set (Expr α)) (e : Expr α) : Prop :=
  ∀ a ∈ e.preorder, a.NodeEvaluable V E

variable {V : Set String} {E : Set (Expr α)} {s : Symbol α} {args : List (Expr α)} {a b e : Expr α}

theorem evaluable_node : (node s args).Evaluable V E ↔
    (node s args).NodeEvaluable V E ∧ ∀ a ∈ args, a.Evaluable V E := by
  simp only [Evaluable, preorder_node, List.forall_mem_cons, List.forall_mem_flatMap]

theorem Evaluable.operand (h : (node s args).Evaluable V E) (ha : a ∈ args) : a.Evaluable V E :=
  (evaluable_node.1 h).2 a ha

theorem Evaluable.mem_of_occurs (h : e.Evaluable V E) {x : String}
    (hx : x ∈ e.variableOccurrences) : x ∈ V := by
  obtain ⟨a, ha, hax⟩ := mem_variableOccurrences_iff.1 hx
  exact (h a ha).name_mem x hax

theorem Evaluable.mono {W : Set String} (h : e.Evaluable V E) (hV : V ⊆ W) : e.Evaluable W E :=
  fun a ha => ⟨(h a ha).takes, fun x hx => hV ((h a ha).name_mem x hx), (h a ha).exponent_mem⟩

/-- An expression that compiles is one whose nodes all can be evaluated. -/
theorem exists_compile_iff : (∃ p, Program.compile e = .ok p) ↔
    e.Evaluable {x | x ∈ e.variableOccurrences} Set.univ := by
  constructor
  · rintro ⟨p, hp⟩ a ha
    exact ⟨Program.accepts_of_mem hp a ha, fun x hx => mem_variableOccurrences_iff.2 ⟨a, ha, hx⟩,
      fun _ _ _ => trivial⟩
  · intro h
    exact instructions_isOk 0 fun a ha => (h a ha).takes

theorem Evaluable.exists_compile (h : e.Evaluable V E) : ∃ p, Program.compile e = .ok p :=
  instructions_isOk 0 fun a ha => (h a ha).takes

theorem holdsOfOperations_nodeEvaluable (V : Set String) (E : Set (Expr α)) :
    HoldsOfOperations (NodeEvaluable V E) := by
  refine fun s args htakes hvar hpow => ⟨htakes, fun x hx => ?_, fun hs => absurd hs hpow⟩
  have hname : (node s args).variableName? = (node s []).variableName? := by cases s <;> rfl
  rw [hname, hvar] at hx
  cases hx

end

/-- What differentiation with respect to `x` meets at a power: an integer constant as exponent,
which can be lowered by one, or else a failure that `Q` allows. -/
def PowersDerivable {α : Type} [Scalar α] (Q : ModelError α → Prop) (E : Set (Expr α)) (x : String)
    (e : Expr α) : Prop :=
  ∀ f n, node .power [f, n] ∈ e.preorder → (node .power [f, n]).mentions x →
    (∃ c, n.constantValue? = some c ∧ (Scalar.integer? c).isSome ∧ constant (c - 1) ∈ E) ∨
      (n.constantValue?.bind Scalar.integer?).isSome = false ∧ Q (.unsupportedExponent (.term n))

section
variable {α : Type} [Scalar α] {V : Set String} {E : Set (Expr α)}
  {Q : ModelError α → Prop} {x : String}
variable {s : Symbol α} {args ds : List (Expr α)} {e : Expr α}

theorem PowersDerivable.operand (h : (node s args).PowersDerivable Q E x) {a : Expr α}
    (ha : a ∈ args) : a.PowersDerivable Q E x :=
  fun f n hmem => h f n (mem_preorder_of_mem ha hmem)

/-- A symbol that can be evaluated has a rule; only the exponent of a power may stand against it. -/
theorem ends_checkDerivable (first : ℕ) (htakes : s.Takes args.length)
    (hm : (node s args).mentions x) (hp : (node s args).PowersDerivable Q E x) :
    Ends Q (fun _ => ∀ f n, s = .power → args = [f, n] →
      ∃ c, n.constantValue? = some c ∧ constant (c - 1) ∈ E) (checkDerivable first s args) := by
  obtain ⟨op, hop, hacc⟩ := htakes
  cases s with
  | power =>
    cases hop
    obtain ⟨f, n, rfl⟩ := List.length_eq_two.1 (by simpa [Opcode.accepts] using hacc)
    show Ends Q _ (expectIntegerExponent [f, n])
    rw [expectIntegerExponent]
    rcases hp f n (mem_preorder_self _) hm with ⟨c, hc, hint, hE⟩ | ⟨hnone, hQ⟩
    -- the exponent is an integer constant, or the error is one that is allowed for
    · rw [if_pos (by rw [hc]; exact hint)]
      rintro f' n' - ⟨⟩
      exact ⟨c, hc, hE⟩
    · rw [if_neg (by rw [hnone]; exact Bool.false_ne_true)]
      exact hQ
  | sub | div =>
    cases hop
    have hne : args.isEmpty = false := by
      rcases args with _ | ⟨a, args⟩
      · cases hacc
      · rfl
    rw [checkDerivable, hne]
    rintro _ _ ⟨⟩
  | sin | cos | tan | tanh | log | exp | square | sqrt | abs | subFunction | analyticQuotient =>
    cases hop
    rw [checkDerivable, expectOperands_eq_ok.2 (by simpa [Opcode.accepts] using hacc)]
    rintro _ _ ⟨⟩
  | var | const | add | mul => rintro _ _ ⟨⟩
  | cube | cbrt | root | logistic | erf | min | max => cases hop

/-- The rule for each symbol builds an expression that can be evaluated. -/
theorem Evaluable.derivativeRule (hlen : ds.length = args.length)
    (hargs : ∀ a ∈ args, a.Evaluable V E) (hds : ∀ d ∈ ds, d.Evaluable V E)
    (hpow : ∀ f n, s = .power → args = [f, n] → ∃ c,
      n.constantValue? = some c ∧ constant (c - 1) ∈ E) :
    (Expr.derivativeRule x s args ds).Evaluable V E := by
  refine Everywhere.derivativeRule
    (holdsOfOperations_nodeEvaluable V E) s hlen hargs hds fun f n c hs ha hc => ?_
  obtain ⟨c', hc', hE⟩ := hpow f n hs ha
  obtain rfl := Option.some_inj.1 (hc.symm.trans hc')
  exact ⟨⟨_, rfl, rfl⟩, (fun _ hx => nomatch hx), fun _ => List.forall_mem_singleton.2 hE⟩

/-- The derivative of an expression that can be evaluated can be evaluated, with the same
variables. -/
theorem Evaluable.derivativeAt (h : e.Evaluable V E) (hp : e.PowersDerivable Q E x) :
    ∀ first, Ends Q (·.Evaluable V E) (Expr.derivativeAt x first e) := by
  induction e with
  | node s args ih =>
    have hargs : ∀ first, Ends Q (fun ds => ds.length = args.length ∧ ∀ d ∈ ds, d.Evaluable V E)
        (derivativesAt x first args) := by
      have hall := fun a ha => ih a ha (h.operand ha) (hp.operand ha)
      clear ih h hp
      induction args with
      | nil => exact fun _ => ⟨rfl, by simp⟩
      | cons a args iha =>
        intro first
        rw [List.forall_mem_cons] at hall
        refine (hall.1 first).bind fun d hd => (iha hall.2 (first + a.size)).bind fun ds hds => ?_
        refine ⟨?_, List.forall_mem_cons.2 ⟨hd, hds.2⟩⟩
        rw [List.length_cons, List.length_cons, hds.1]
    obtain ⟨hnode, hoperands⟩ := evaluable_node.1 h
    have htakes : s.Takes args.length := hnode.takes
    intro first
    rw [Expr.derivativeAt]
    split
    · exact Everywhere.const (holdsOfOperations_nodeEvaluable V E) 0
    · rename_i hm
      split
      · rename_i hleaf
        cases s with
        | var | const => exact Everywhere.const (holdsOfOperations_nodeEvaluable V E) _
        | _ => cases hleaf
      · refine (ends_checkDerivable first htakes (by simpa using hm) hp).bind fun _ hpow =>
          (hargs (first + 1)).bind fun ds hds => ?_
        exact derivativeRule hds.1 hoperands hds.2 hpow

omit [Scalar α] in
theorem mentions_of_mem {a b : Expr α} (ha : a ∈ b.preorder) (hm : a.mentions x) :
    b.mentions x := by
  rw [mentions_iff] at hm ⊢
  exact (sublist_variableOccurrences ha).subset hm

/-- Where there is a derivative with respect to `x`, the exponent of each power with `x` is an
integer. -/
theorem isSome_integer?_of_derivativeAt (h : e.Evaluable V E) {d : Expr α} {first : ℕ}
    (hd : Expr.derivativeAt x first e = .ok d) {f n : Expr α}
    (hmem : node .power [f, n] ∈ e.preorder)
    (hm : (node .power [f, n]).mentions x) : (n.constantValue?.bind Scalar.integer?).isSome := by
  -- A variable or a constant that can be evaluated has no operands, so no power lies below it.
  have hleaf {s : Symbol α} {args : List (Expr α)} (hs : isLeafSymbol s = true)
      (h : (node s args).Evaluable V E) :
      node .power [f, n] ∉ (node s args).preorder := by
    obtain ⟨op, hop, hacc⟩ := ((evaluable_node.1 h).1).takes
    cases s with
    | var | const =>
      cases hop
      obtain rfl : args = [] := by simpa [Opcode.accepts, operands] using hacc
      simp [preorder_node]
    | _ => cases hs
  refine derivativeAt_induction (R := fun e _ => e.Evaluable V E → node .power [f, n] ∈ e.preorder →
      (n.constantValue?.bind Scalar.integer?).isSome) (fun e he _ hmem =>
      absurd (mentions_of_mem hmem hm) he)
    (fun _ _ _ h hmem => absurd hmem (hleaf rfl h)) (fun _ _ h hmem => absurd hmem (hleaf rfl h))
    (fun s args ds first _ hcheck _ hall h hmem => ?_) hd h hmem
  rw [preorder_node, List.mem_cons, List.mem_flatMap] at hmem
  rcases hmem with hself | ⟨a, ha, hmem⟩
  · cases hself
    obtain ⟨f', n', c, hargs, hc, hint⟩ := exists_of_checkDerivable_power hcheck
    cases hargs
    rwa [hc]
  · obtain ⟨d', -, ih⟩ := exists_of_forall₂ hall a ha
    exact ih (h.operand ha) hmem

def derivatives : List String → Expr α → Except (ModelError α) (Expr α)
  | [], e => .ok e
  | x :: xs, e => do
    let d ← e.derivative x
    derivatives xs d

theorem nthDerivative_eq_derivatives (x : String) (order : ℕ) (e : Expr α) :
    e.nthDerivative x order = e.derivatives (List.replicate order x) := by
  induction order generalizing e with
  | zero => rfl
  | succ order ih => exact bind_congr fun d => ih d

end

/-! ### Other names for the variables -/

section
variable {α : Type} {V W : Set String} {E F : Set (Expr α)} {e : Expr α} {f : String → String}

theorem NodeEvaluable.of_relabel (h : (e.relabel f).NodeEvaluable V E)
    (hV : ∀ x, e.variableName? = some x → x ∈ W)
    (hE : ∀ n ∈ e.operands, n.relabel f ∈ E → n ∈ F) : e.NodeEvaluable W F := by
  obtain ⟨s, args⟩ := e
  have hlen : (args.map (relabel f)).length = args.length := List.length_map _
  rw [relabel_node] at h
  obtain ⟨op, hop, hacc⟩ := h.takes
  refine ⟨⟨op, ?_, hlen ▸ hacc⟩, hV, ?_⟩
  · rwa [symbol, ofSymbol?_relabel] at hop
  · rintro rfl n hn
    refine hE n (List.mem_of_mem_tail hn) (h.exponent_mem rfl _ ?_)
    rw [operands, ← List.map_tail]
    exact List.mem_map_of_mem hn

theorem Evaluable.of_relabel (h : (e.relabel f).Evaluable V E)
    (hV : ∀ x ∈ e.variableOccurrences, x ∈ W)
    (hE : ∀ n, (∀ x ∈ n.variableOccurrences, x ∈ W) → n.relabel f ∈ E → n ∈ F) :
    e.Evaluable W F := by
  intro a ha
  have hmem : a.relabel f ∈ (e.relabel f).preorder := by
    rw [preorder_relabel]
    exact List.mem_map_of_mem ha
  refine (h _ hmem).of_relabel (fun x hx =>
    hV x (mem_variableOccurrences_iff.2 ⟨a, ha, hx⟩)) fun n hn => hE n ?_
  intro x hx
  obtain ⟨s, args⟩ := a
  exact hV x ((sublist_variableOccurrences ha).subset (mem_variableOccurrences_of_mem hn hx))

end

end Expr

open OccurrenceTree in
theorem evaluable_tree_of_compile {α : Type} {model : Expr α} {p : Program α}
    (hp : Program.compile model = .ok p) :
    (of model).tree.Evaluable {o | o ∈ (of model).tree.variableOccurrences} Set.univ := by
  have h := Expr.exists_compile_iff.1 ⟨p, hp⟩
  rw [← relabel_owner model] at h
  exact h.of_relabel (fun _ hx => hx) fun _ _ _ => trivial

end ModalBounds
