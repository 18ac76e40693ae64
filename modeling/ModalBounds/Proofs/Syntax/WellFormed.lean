import Mathlib
import ModalBounds.Proofs.Expr.Everywhere
import ModalBounds.Proofs.Expr.Growth
import ModalBounds.Proofs.Syntax.RoundTrip

/-!
# Trees that fit their symbols

Whether a function, an operator or a rule for derivatives gets as many operands as it takes is
decided in several places: by the table of functions and the chains of operators when a source is
read, by the folding constructors when it is differentiated, and by the operations when it is
compiled. They agree: what is read is `WellFormed`, naming its occurrences and differentiating it
keeps that, and a well-formed tree compiles unless some symbol has no operation (`compile_of_read`).
-/

namespace ModalBounds

namespace Expr

section
variable {α : Type}

/-- The symbol of a node takes its operands, if it has an operation at all. -/
def Fits (a : Expr α) : Prop :=
  ∀ op, Opcode.ofSymbol? a.symbol = some op → op.accepts a.operands.length = true

def WellFormed (e : Expr α) : Prop := e.Everywhere Fits

variable {e a : Expr α} {f : String → String}

theorem fits_of_takes {s : Symbol α} {args : List (Expr α)} (h : s.Takes args.length) :
    (node s args).Fits := by
  obtain ⟨op, hop, hacc⟩ := h
  intro op' hop'
  obtain rfl := Option.some_inj.1 (hop.symm.trans hop')
  exact hacc

theorem holdsOfOperations_fits : HoldsOfOperations (Fits (α := α)) :=
  fun _ _ htakes _ _ => fits_of_takes htakes

/-! ### Compiling -/

theorem isSupported_iff :
    e.isSupported = true ↔ ∀ a ∈ e.preorder, (Opcode.ofSymbol? a.symbol).isSome := by
  rw [isSupported, List.all_eq_true]
  constructor
  · intro h a ha
    obtain ⟨n, hn⟩ := List.mem_iff_getElem?.1 ha
    exact h (n, a) (mem_postorder.2 ⟨n.zero_le, hn⟩)
  · rintro h ⟨n, a⟩ ha
    exact h a (mem_preorder_of_mem_postorder ha)

theorem instruction_of_fits (h : a.Fits) (n : ℕ) :
    (∃ i, Program.instruction a n = .ok i) ∧ (Opcode.ofSymbol? a.symbol).isSome ∨
      Opcode.ofSymbol? a.symbol = none ∧
      Program.instruction a n = .error (.unsupportedSymbol a.symbol n) := by
  rw [Program.instruction]
  cases hop : Opcode.ofSymbol? a.symbol with
  | none => exact .inr ⟨rfl, rfl⟩
  | some op => exact .inl ⟨⟨_, if_pos (h op hop)⟩, rfl⟩

theorem instructions_of_fits {l : List (Expr α)} (h : ∀ a ∈ l, a.Fits) (first : ℕ) :
    (∃ p, Program.instructions first l = .ok p) ∧ (∀ a ∈ l, (Opcode.ofSymbol? a.symbol).isSome) ∨
      ∃ l₁ a l₂, l = l₁ ++ a :: l₂ ∧ (∀ b ∈ l₁, (Opcode.ofSymbol? b.symbol).isSome) ∧
        Opcode.ofSymbol? a.symbol = none ∧
        Program.instructions first l =
          .error (.unsupportedSymbol a.symbol (first + l₁.length)) := by
  induction l generalizing first with
  | nil => exact .inl ⟨⟨[], rfl⟩, by simp⟩
  | cons a l ih =>
    rw [List.forall_mem_cons] at h
    rw [Program.instructions]
    rcases instruction_of_fits h.1 first with ⟨⟨i, hi⟩, hsome⟩ | ⟨hnone, hi⟩
    · rcases ih h.2 (first + 1) with ⟨⟨p, hp⟩, hall⟩ | ⟨l₁, b, l₂, rfl, hall, hnone, herr⟩
      · exact .inl ⟨⟨i :: p, by rw [hi, hp]; rfl⟩, List.forall_mem_cons.2 ⟨hsome, hall⟩⟩
      · refine .inr ⟨a :: l₁, b, l₂, rfl, List.forall_mem_cons.2 ⟨hsome, hall⟩, hnone, ?_⟩
        rw [hi, herr, List.length_cons, Nat.add_assoc, Nat.add_comm 1]
        rfl
    · exact .inr ⟨[], a, l, rfl, by simp, hnone, by rw [hi]; rfl⟩

namespace WellFormed

theorem exists_compile_iff (h : e.WellFormed) :
    (∃ p, Program.compile e = .ok p) ↔ e.isSupported = true := by
  rw [isSupported_iff]
  rcases instructions_of_fits h 0 with ⟨hp, hall⟩ | ⟨l₁, a, l₂, hl, -, hnone, herr⟩
  · exact ⟨fun _ => hall, fun _ => hp⟩
  · constructor
    · rintro ⟨p, hp⟩
      exact nomatch herr.symm.trans hp
    · intro hall
      have := hall a (by rw [hl]; simp)
      rw [hnone] at this
      exact nomatch this

/-- Where some symbol has no operation, the first such node in pre-order is reported. -/
theorem compile_eq_error (h : e.WellFormed) (hsupported : e.isSupported = false) :
    ∃ l₁ a l₂, e.preorder = l₁ ++ a :: l₂ ∧ (∀ b ∈ l₁, (Opcode.ofSymbol? b.symbol).isSome) ∧
      Opcode.ofSymbol? a.symbol = none ∧
      Program.compile e = .error (.unsupportedSymbol a.symbol l₁.length) := by
  rcases instructions_of_fits h 0 with ⟨-, hall⟩ | ⟨l₁, a, l₂, hl, hall, hnone, herr⟩
  · rw [isSupported_iff.2 hall] at hsupported
    exact nomatch hsupported
  · exact ⟨l₁, a, l₂, hl, hall, hnone, by rw [Program.compile, herr, Nat.zero_add]⟩

theorem compile_ne_malformedTree (h : e.WellFormed) (n : ℕ) (cause : Malformation) :
    Program.compile e ≠ .error (.malformedTree n cause) := by
  rcases instructions_of_fits h 0 with ⟨⟨p, hp⟩, -⟩ | ⟨l₁, a, l₂, -, -, -, herr⟩
  · rw [Program.compile, hp]
    exact nofun
  · rw [Program.compile, herr]
    exact nofun

end WellFormed

/-! ### Other names -/

theorem fits_of_fits_relabel (h : (a.relabel f).Fits) : a.Fits := by
  obtain ⟨s, args⟩ := a
  have hlen : (args.map (relabel f)).length = args.length := List.length_map _
  rw [relabel_node] at h
  exact fun op hop => hlen ▸ h op ((ofSymbol?_relabel f s).trans hop)

theorem WellFormed.of_relabel (h : (e.relabel f).WellFormed) : e.WellFormed := by
  intro a ha
  refine fits_of_fits_relabel (f := f) (h _ ?_)
  rw [preorder_relabel]
  exact List.mem_map_of_mem ha

theorem WellFormed.occurrenceTree (h : e.WellFormed) : (OccurrenceTree.of e).tree.WellFormed := by
  rw [← OccurrenceTree.relabel_owner e] at h
  exact h.of_relabel

end

section
variable {α : Type} [Scalar α] {e d : Expr α}

/-! ### Differentiating -/

/-- A derivative is well-formed, whatever symbols without an operation it keeps. -/
theorem WellFormed.derivativeAt {x : String} {first : ℕ} (h : e.WellFormed)
    (hd : derivativeAt x first e = .ok d) : d.WellFormed := by
  refine derivativeAt_keeps (R := fun e d => e.WellFormed → d.WellFormed)
    (fun _ value _ => Everywhere.const holdsOfOperations_fits value)
      (fun s args ds _ hall h => ?_) hd h
  refine Everywhere.derivativeRule holdsOfOperations_fits s hall.length_eq.symm
    (fun a ha => h.operand ha)
    (fun d hd => ?_) fun f n c _ _ _ => fits_of_takes ⟨_, rfl, rfl⟩
  obtain ⟨a, hda, ha⟩ := exists_of_forall₂ (hall.flip.imp fun _ _ h => h) d hd
  exact ha (h.operand hda)

/-- A tree comes from another by naming occurrences and differentiating, in any order. -/
inductive ComesFrom (e : Expr α) : Expr α → Prop
  | self : ComesFrom e e
  | occurrenceTree {a : Expr α} : ComesFrom e a → ComesFrom e (OccurrenceTree.of a).tree
  | derivative {a d : Expr α} {x : String} : ComesFrom e a → a.derivative x = .ok d → ComesFrom e d

theorem WellFormed.of_comesFrom (h : e.WellFormed) (hd : e.ComesFrom d) : d.WellFormed := by
  induction hd with
  | self => exact h
  | occurrenceTree _ ih => exact ih.occurrenceTree
  | derivative _ hd ih => exact ih.derivativeAt hd

/-! ### Reading -/

omit [Scalar α] in
theorem fits_of_callSymbol? {name : String} {s : Symbol α} {arity : Arity} {args : List (Expr α)}
    (hcall : callSymbol? name = some (s, arity)) (harity : arity.accepts args.length = true) :
    (node s args).Fits := by
  unfold callSymbol? at hcall
  split at hcall <;> cases hcall <;>
    first | exact fits_of_takes ⟨_, rfl, harity⟩ | exact fun _ hop => nomatch hop

theorem Written.wellFormed (h : e.Written) : e.WellFormed := by
  induction h with
  | var | const => exact everywhere_node.2 ⟨fits_of_takes ⟨_, rfl, rfl⟩, by simp⟩
  | neg _ _ ih => exact Everywhere.neg holdsOfOperations_fits ih
  | power _ _ iha ihb => exact Everywhere.power (fits_of_takes ⟨_, rfl, rfl⟩) iha ihb
  | chain hs _ _ _ ih =>
    refine everywhere_node.2 ⟨?_, ih⟩
    rcases hs with rfl | rfl | rfl | rfl <;> exact fits_of_takes ⟨_, rfl, by simp [Opcode.accepts]⟩
  | call hcall harity _ ih => exact everywhere_node.2 ⟨fits_of_callSymbol? hcall harity, ih⟩

variable [Numeral α]

/-- A source that is read gives a tree that compiles if each of its symbols has an operation; else
the first in pre-order that has none is reported. Neither this tree nor one that comes from it is
ever malformed. -/
theorem compile_of_read {limits : Limits} {source : String} (h : read limits source = .ok e) :
    ((∃ p, Program.compile e = .ok p) ↔ e.isSupported = true) ∧
    (e.isSupported = false → ∃ l₁ a l₂, e.preorder = l₁ ++ a :: l₂ ∧
      (∀ b ∈ l₁, (Opcode.ofSymbol? b.symbol).isSome) ∧ Opcode.ofSymbol? a.symbol = none ∧
      Program.compile e = .error (.unsupportedSymbol a.symbol l₁.length)) ∧
    ∀ d, e.ComesFrom d → ∀ n cause, Program.compile d ≠ .error (.malformedTree n cause) := by
  have hwell : e.WellFormed := (written_of_read h).wellFormed
  exact ⟨hwell.exists_compile_iff, hwell.compile_eq_error,
    fun d hd n cause => (hwell.of_comesFrom hd).compile_ne_malformedTree n cause⟩

/-- The expression `max(x, y) / z`. -/
def greaterOverOther : Expr Float :=
  binary .div (node .max [ofVariable "x", ofVariable "y"]) (ofVariable "z")

/-- It cannot be compiled because of its second node. Its derivative keeps that, and is not
malformed either. -/
theorem compile_of_read_greaterOverOther : ∃ d, read {} "max(x, y) / z" = .ok greaterOverOther ∧
    Program.compile greaterOverOther = .error (.unsupportedSymbol .max 1) ∧
    (OccurrenceTree.of greaterOverOther).tree.derivative "z_1" = .ok d ∧
    ∀ n cause, Program.compile d ≠ .error (.malformedTree n cause) := by
  have hread : read {} "max(x, y) / z" = .ok greaterOverOther :=
    toOption_eq_some.1 (by decide +kernel)
  have hsome : ((OccurrenceTree.of greaterOverOther).tree.derivative "z_1").toOption.isSome := by
    decide +kernel
  obtain ⟨d, hd⟩ := Option.isSome_iff_exists.1 hsome
  rw [toOption_eq_some] at hd
  obtain ⟨-, -, hfine⟩ := compile_of_read hread
  exact ⟨d, hread, rfl, hd, hfine d (.derivative (.occurrenceTree .self) hd)⟩

end

end Expr

end ModalBounds
