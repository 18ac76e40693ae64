import Mathlib
import ModalBounds.Error

/-!
# Computations that may fail

A chain of `Except` computations succeeds exactly when each of them does, one after the other.
`Ends` says of one what its results and what its errors are like, and goes along chains. A check of
a limit succeeds where the quantity is within it.
-/

namespace ModalBounds

theorem bind_eq_ok {ε β γ : Type} {x : Except ε β} {f : β → Except ε γ} {c : γ} :
    (x >>= f) = .ok c ↔ ∃ b, x = .ok b ∧ f b = .ok c := by
  cases x with
  | ok b => exact ⟨fun h => ⟨b, rfl, h⟩, fun ⟨_, hb, h⟩ => by cases hb; exact h⟩
  | error e => exact ⟨fun h => (nomatch h), fun ⟨_, hb, _⟩ => nomatch hb⟩

theorem bind_eq_error {ε β γ : Type} {x : Except ε β} {f : β → Except ε γ} {e : ε} :
    (x >>= f) = .error e ↔ x = .error e ∨ ∃ b, x = .ok b ∧ f b = .error e := by
  cases x with
  | ok b =>
    exact ⟨fun h => .inr ⟨b, rfl, h⟩, fun h => h.elim nofun fun ⟨_, hb, h⟩ => by cases hb; exact h⟩
  | error e' =>
    refine ⟨fun h => .inl ?_, fun h => h.elim (fun h => ?_) fun ⟨_, hb, _⟩ => nomatch hb⟩ <;>
      cases h <;> rfl

theorem pure_eq_ok {ε β : Type} {b c : β} : (pure b : Except ε β) = .ok c ↔ b = c :=
  ⟨fun h => by cases h; rfl, fun h => by rw [h]; rfl⟩

theorem map_eq_ok {ε β γ : Type} {x : Except ε β} {f : β → γ} {c : γ} :
    f <$> x = .ok c ↔ ∃ b, x = .ok b ∧ f b = c := by
  cases x with
  | ok b => exact ⟨fun h => ⟨b, rfl, by cases h; rfl⟩, fun ⟨_, hb, h⟩ => by cases hb; rw [← h]; rfl⟩
  | error e => exact ⟨fun h => (nomatch h), fun ⟨_, hb, _⟩ => nomatch hb⟩

theorem toOption_eq_some {ε β : Type} {x : Except ε β} {b : β} :
    x.toOption = some b ↔ x = .ok b := by
  cases x with
  | ok b' => exact ⟨fun h => by cases h; rfl, fun h => by cases h; rfl⟩
  | error e => exact ⟨fun h => (nomatch h), fun h => nomatch h⟩

/-- A result has the property `P`, and an error the property `Q`. -/
def Ends {ε β : Type} (Q : ε → Prop) (P : β → Prop) : Except ε β → Prop
  | .ok b => P b
  | .error e => Q e

namespace Ends

variable {ε β γ : Type} {Q : ε → Prop} {P : β → Prop} {R : γ → Prop} {x : Except ε β}

instance decidable [DecidablePred Q] [DecidablePred P] : (x : Except ε β) → Decidable (Ends Q P x)
  | .ok b => inferInstanceAs (Decidable (P b))
  | .error e => inferInstanceAs (Decidable (Q e))

theorem bind {f : β → Except ε γ} (h : Ends Q P x) (hf : ∀ b, P b → Ends Q R (f b)) :
    Ends Q R (x >>= f) := by
  cases x with
  | ok b => exact hf b h
  | error e => exact h

theorem map {f : β → γ} (h : Ends Q P x) (hf : ∀ b, P b → R (f b)) : Ends Q R (f <$> x) := by
  cases x with
  | ok b => exact hf b h
  | error e => exact h

theorem mono {Q' : ε → Prop} (h : Ends Q P x) (hQ : ∀ e, Q e → Q' e) : Ends Q' P x := by
  cases x with
  | ok b => exact h
  | error e => exact hQ e h

theorem of_ok {b : β} (h : Ends Q P x) (hx : x = .ok b) : P b := by
  subst hx
  exact h

theorem of_error {e : ε} (h : Ends Q P x) (hx : x = .error e) : Q e := by
  subst hx
  exact h

theorem exists_ok (h : Ends (fun _ => False) P x) : ∃ b, x = .ok b ∧ P b := by
  cases x with
  | ok b => exact ⟨b, rfl, h⟩
  | error e => exact h.elim

end Ends

namespace Limits

variable {α : Type} {limits : Limits} {e : Expr α}

def Allows (limits : Limits) (e : Expr α) : Prop := limits.checkTree e = .ok ()

theorem check_eq_ok {limit : Limit} {allowed actual : ℕ} :
    check (α := α) limit allowed actual = .ok () ↔ actual ≤ allowed := by
  rw [check]
  split
  · exact ⟨fun h => (nomatch h), fun h => by omega⟩
  · exact ⟨fun _ => by omega, fun _ => rfl⟩

theorem allows_iff : limits.Allows e ↔ e.depth ≤ limits.treeDepth ∧ e.size ≤ limits.treeLength := by
  rw [Allows, checkTree, bind_eq_ok]
  constructor
  · rintro ⟨⟨⟩, hdepth, hsize⟩
    exact ⟨check_eq_ok.1 hdepth, check_eq_ok.1 hsize⟩
  · rintro ⟨hdepth, hsize⟩
    exact ⟨(), check_eq_ok.2 hdepth, check_eq_ok.2 hsize⟩

instance : Decidable (limits.Allows e) := decidable_of_iff _ allows_iff.symm

theorem checkSource_eq_ok {source : String} :
    limits.checkSource (α := α) source = .ok () ↔ source.utf8ByteSize ≤ limits.sourceBytes :=
  check_eq_ok

end Limits

end ModalBounds
