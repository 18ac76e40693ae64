import Mathlib
import ModalBounds.Proofs.Expr.Evaluable

/-!
# When evaluations succeed

Once an expression compiles and every variable has a range, the one thing that can go wrong is the
exponent of a power (`Evaluable.ends_interval`). Whether it does depends on the interval of the
exponent alone (`exists_powerOf_iff`), so an evaluation that succeeds has found an integer in each
exponent (`isExponent_of_interval`), and it succeeds under other names as well (`interval_relabel`).
-/

namespace ModalBounds

variable {α : Type} [Elementary α]

/-- An interval that may stand in an exponent: a single integer of 32 bits. -/
def ModalInterval.IsExponent (y : ModalInterval α) : Prop :=
  y.isDegenerate = true ∧ (exponent? y.lower).isSome = true

instance (y : ModalInterval α) : Decidable y.IsExponent := inferInstanceAs (Decidable (_ ∧ _))

theorem exists_powerOf_iff {x y : ModalInterval α} :
    (∃ z, Machine.powerOf x y = .ok z) ↔ y.IsExponent := by
  rw [Machine.powerOf, ModalInterval.IsExponent]
  split
  · rename_i hdeg
    rw [ModalInterval.pow?]
    rcases ModalInterval.exponent? y.lower with _ | n
    · simp
    · simp [hdeg]
  · rename_i hdeg
    simp [hdeg]

def ModelError.IsUnsupportedExponent {α : Type} : ModelError α → Prop
  | .unsupportedExponent _ => True
  | _ => False

theorem ends_powerOf (x y : ModalInterval α) :
    Ends ModelError.IsUnsupportedExponent (fun _ => True) (Machine.powerOf x y) := by
  rw [Machine.powerOf]
  split
  · split <;> trivial
  · trivial

namespace Expr

variable {V : Set String} {E : Set (Expr α)} {Q : ModelError α → Prop} {env : Environment α}

/-- A symbol that takes its operands has an interval; a power may fail by its exponent. -/
theorem ends_symbol_interval {s : Symbol α} {xs : List (ModalInterval α)}
    (htakes : s.Takes xs.length) (hvar : ∀ name weight, s = .var name weight → (env name).isSome)
    (hpow : ∀ x y, s = .power → xs = [x, y] → Ends Q (fun _ => True) (Machine.powerOf x y)) :
    Ends Q (fun _ => True) (s.interval env xs) := by
  obtain ⟨op, hop, hacc⟩ := htakes
  cases s with
  | var name weight =>
    obtain ⟨x, hx⟩ := Option.isSome_iff_exists.1 (hvar name weight rfl)
    rw [Symbol.interval, hx]
    trivial
  | const => trivial
  | power =>
    cases hop
    obtain ⟨x, y, rfl⟩ := List.length_eq_two.1 (by simpa [Opcode.accepts] using hacc)
    exact hpow x y rfl rfl
  | add | mul =>
    cases hop
    rcases xs with _ | ⟨x, xs⟩
    · cases hacc
    · trivial
  | sub | div =>
    cases hop
    rcases xs with _ | ⟨x, _ | ⟨y, xs⟩⟩
    · cases hacc
    · trivial
    · trivial
  | analyticQuotient =>
    cases hop
    obtain ⟨x, y, rfl⟩ := List.length_eq_two.1 (by simpa [Opcode.accepts] using hacc)
    trivial
  | sin | cos | tan | tanh | log | exp | square | sqrt | abs | subFunction =>
    cases hop
    obtain ⟨x, rfl⟩ := List.length_eq_one_iff.1 (by simpa [Opcode.accepts] using hacc)
    trivial
  | cube | cbrt | root | logistic | erf | min | max => cases hop

/-- An expression whose variables have ranges has an interval, unless an exponent fails. -/
theorem Evaluable.ends_interval {e : Expr α} (h : e.Evaluable V E) (henv : ∀ v ∈ V, (env v).isSome)
    (hE : ∀ n ∈ E, ∀ x y, n.interval env = .ok y → Ends Q (fun _ => True) (Machine.powerOf x y)) :
    Ends Q (fun _ => True) (e.interval env) := by
  induction e with
  | node s args ih =>
    have hargs : Ends Q (fun xs => List.Forall₂ (fun a x => a.interval env = .ok x) args xs)
        (intervals env args) := by
      have hall := fun a ha => ih a ha (h.operand ha)
      clear ih h
      induction args with
      | nil => exact .nil
      | cons a args iha =>
        rw [List.forall_mem_cons] at hall
        rw [intervals]
        cases ha : a.interval env with
        | error e => rw [ha] at hall; exact hall.1
        | ok x => exact (iha hall.2).bind fun xs hxs => .cons ha hxs
    have hnode := (evaluable_node.1 h).1
    rw [interval]
    refine hargs.bind fun xs hxs => ends_symbol_interval (hxs.length_eq ▸ hnode.takes) ?_ ?_
    · rintro name weight rfl
      exact henv name (hnode.name_mem name rfl)
    · rintro x y rfl rfl
      obtain _ | ⟨hf, _ | ⟨hn, _ | _⟩⟩ := hxs
      exact hE _ (hnode.exponent_mem rfl _ (by simp [operands])) x y hn

/-- An evaluation that succeeds has found an integer in each exponent. -/
theorem isExponent_of_interval {e f n : Expr α} {z : ModalInterval α} (h : e.interval env = .ok z)
    (hmem : node .power [f, n] ∈ e.preorder) : ∃ y, n.interval env = .ok y ∧ y.IsExponent := by
  obtain ⟨w, hw⟩ := exists_interval_of_mem_preorder h _ hmem
  rw [interval] at hw
  obtain ⟨xs, hxs, hw⟩ := bind_eq_ok.1 hw
  obtain _ | ⟨hf, _ | ⟨hn, _ | _⟩⟩ := intervals_eq_ok.1 hxs
  exact ⟨_, hn, exists_powerOf_iff.1 ⟨w, hw⟩⟩

theorem interval_relabel {f : String → String} {e : Expr α} {x : ModalInterval α} :
    (e.relabel f).interval env = .ok x ↔ e.interval (env ∘ f) = .ok x := by
  induction e generalizing x with
  | node s args ih =>
    have hargs {xs : List (ModalInterval α)} :
        intervals env (args.map (relabel f)) = .ok xs ↔ intervals (env ∘ f) args = .ok xs := by
      induction args generalizing xs with
      | nil => exact Iff.rfl
      | cons a args iha =>
        rw [List.forall_mem_cons] at ih
        rw [List.map_cons, intervals, intervals, bind_eq_ok, bind_eq_ok]
        refine exists_congr fun y => and_congr ih.1 ?_
        rw [bind_eq_ok, bind_eq_ok]
        exact exists_congr fun ys => and_congr (iha ih.2) Iff.rfl
    rw [relabel_node, interval, interval, bind_eq_ok, bind_eq_ok]
    refine exists_congr fun xs => and_congr hargs ?_
    cases s with
    | var name weight =>
      simp only [Symbol.relabel, Symbol.interval, Function.comp_apply]
      cases env (f name) <;> simp
    | _ => exact Eq.congr_left (Symbol.interval_congr xs (by rintro _ _ ⟨⟩))

end Expr

end ModalBounds
