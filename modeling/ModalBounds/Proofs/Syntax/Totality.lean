import ModalBounds.Syntax.Source
import ModalBounds.Proofs.Syntax.Yields

/-!
# Reading a text always ends

A grammar is *steady* if no rule begins with itself and whatever is repeated reads a character. Then
between two characters only so many patterns are entered, and the fuel of `Grammar.parse` is enough
(`exists_run`): a text is read as a rule exactly if the rule matches (`parse_eq_ok`).
-/

namespace ModalBounds

namespace Pattern

variable {ρ : Type}

/-- Whether a match is never empty, given the rules of which this holds. -/
def eats (rules : ρ → Bool) : Pattern ρ → Bool
  | char _ => true
  | seq a b => a.eats rules || b.eats rules
  | alt a b => a.eats rules && b.eats rules
  | rule r => rules r
  | _ => false

/-- How deep patterns nest before a character is read, given the depths of the rules. -/
def lead (rules : ρ → Bool) (depth : ρ → ℕ) : Pattern ρ → ℕ
  | seq a b => 1 + max (a.lead rules depth) (if a.eats rules then 0 else b.lead rules depth)
  | alt a b => 1 + max (a.lead rules depth) (b.lead rules depth)
  | opt a => 1 + a.lead rules depth
  | star a => 1 + a.lead rules depth
  | notHere a => 1 + a.lead rules depth
  | rule r => 1 + depth r
  | _ => 1

/-- Only what is never empty is repeated, and what can come after a character is not too deep. -/
def steady (rules : ρ → Bool) (depth : ρ → ℕ) (bound : ℕ) : Pattern ρ → Bool
  | seq a b =>
    a.steady rules depth bound && b.steady rules depth bound && decide (b.lead rules depth ≤ bound)
  | alt a b => a.steady rules depth bound && b.steady rules depth bound
  | opt a => a.steady rules depth bound
  | star a => a.steady rules depth bound && a.eats rules && decide (1 + a.lead rules depth ≤ bound)
  | notHere a => a.steady rules depth bound
  | _ => true

end Pattern

namespace Grammar

variable {ρ : Type}

/-- The depth that `Grammar.fuel` allows for each character. -/
def fuelPerChar (g : Grammar ρ) : ℕ := g.rules.foldr (fun r n => (g.body r).height + 1 + n) 0

structure Steady (g : Grammar ρ) (rules : ρ → Bool) (depth : ρ → ℕ) : Prop where
  eats : ∀ r, rules r = true → (g.body r).eats rules = true
  lead_le : ∀ r, (g.body r).lead rules depth ≤ depth r
  depth_lt : ∀ r, depth r < g.fuelPerChar
  steady : ∀ r, (g.body r).steady rules depth g.fuelPerChar = true

namespace Steady

variable {g : Grammar ρ} {rules : ρ → Bool} {depth : ρ → ℕ} (hg : g.Steady rules depth)
include hg

theorem exists_spans {s : Bool} {p : Pattern ρ} {m n : Mark} {ts : List (Token ρ)}
    (hp : p.eats rules = true)
    (h : g.Yields s p m (some (n, ts))) : ∃ cs, cs ≠ [] ∧ m.Spans cs n := by
  generalize hr : some (n, ts) = r at h
  induction h generalizing n ts with
  | atStart | atEnd | opt_none | star_done | notHere | blank | star_more | opt_some => cases hp
  | atStart_not | atEnd_not | char_not | seq_not | notHere_not | rule_not => cases hr
  | char hc => cases hr; exact ⟨_, List.cons_ne_nil _ _, Mark.spans_of_next? hc⟩
  | @seq _ a b _ k us r ha hb iha ihb =>
    cases r with
    | none => cases hr
    | some r =>
      cases hr
      obtain ⟨cs, hcs⟩ := ha.exists_spans
      obtain ⟨ds, hds⟩ := hb.exists_spans
      rcases Bool.or_eq_true_iff.1 hp with hp | hp
      · obtain ⟨cs, hne, hcs⟩ := iha hp rfl
        exact ⟨cs ++ ds, by simp [hne], hcs.trans hds⟩
      · obtain ⟨ds, hne, hds⟩ := ihb hp rfl
        exact ⟨cs ++ ds, by simp [hne], hcs.trans hds⟩
  | alt_first _ ih => exact ih (Bool.and_eq_true_iff.1 hp).1 hr
  | alt_second _ _ _ ih => exact ih (Bool.and_eq_true_iff.1 hp).2 hr
  | rule _ ih => cases hr; exact ih (hg.eats _ hp) rfl

/-- There is fuel left for what comes after a match. -/
theorem fuel_le {s : Bool} {p : Pattern ρ} {m n : Mark} {ts : List (Token ρ)} {fuel need : ℕ}
    (h : g.Yields s p m (some (n, ts))) (hneed : need ≤ g.fuelPerChar)
    (hfuel : m.rest.length * g.fuelPerChar + (if p.eats rules then 0 else need) ≤ fuel) :
    n.rest.length * g.fuelPerChar + need ≤ fuel := by
  split at hfuel
  · obtain ⟨cs, hne, hcs⟩ := hg.exists_spans ‹_› h
    calc n.rest.length * g.fuelPerChar + need
        ≤ (n.rest.length + 1) * g.fuelPerChar := by rw [Nat.succ_mul]; omega
      _ ≤ m.rest.length * g.fuelPerChar := Nat.mul_le_mul_right _ (hcs.length_lt hne)
      _ ≤ fuel := by omega
  · obtain ⟨cs, hcs⟩ := h.exists_spans
    have := Nat.mul_le_mul_right g.fuelPerChar hcs.length_le
    omega

/-- With enough fuel there is a result. -/
theorem exists_run {fuel : ℕ} {p : Pattern ρ} (hp : p.steady rules depth g.fuelPerChar = true)
    (s : Bool) (m : Mark)
    (hfuel : m.rest.length * g.fuelPerChar + p.lead rules depth ≤ fuel) (a : Attempts ρ) :
    ∃ r a', g.run fuel s p m a = some (r, a') := by
  induction fuel generalizing p s m a with
  | zero =>
    have : 0 < p.lead rules depth := by cases p <;> simp [Pattern.lead]
    omega
  | succ fuel ih =>
    cases p with
    | atStart | atEnd | char | blank => exact ⟨_, _, rfl⟩
    | seq p q =>
      simp only [Pattern.steady, Bool.and_eq_true, decide_eq_true_eq] at hp
      simp only [Pattern.lead] at hfuel
      obtain ⟨_ | ⟨n, ts⟩, b, hrun⟩ := ih hp.1.1 s m (by omega) a
      · exact ⟨none, b, bind_apply_eq_some.2 ⟨_, _, hrun, rfl⟩⟩
      · obtain ⟨r, c, hrun'⟩ := ih hp.1.2 s n (hg.fuel_le (yields_of_run hrun) hp.2 (by omega)) b
        refine ⟨r.after ts, c,
          bind_apply_eq_some.2 ⟨_, _, hrun, bind_apply_eq_some.2 ⟨_, _, hrun', ?_⟩⟩⟩
        cases r <;> rfl
    | alt p q =>
      simp only [Pattern.steady, Bool.and_eq_true] at hp
      simp only [Pattern.lead] at hfuel
      obtain ⟨_ | ⟨n, ts⟩, b, hrun⟩ := ih hp.1 s m (by omega) a
      · obtain ⟨r, c, hrun'⟩ := ih hp.2 s m (by omega) b
        exact ⟨r, c, bind_apply_eq_some.2 ⟨_, _, hrun, hrun'⟩⟩
      · exact ⟨_, b, bind_apply_eq_some.2 ⟨_, _, hrun, rfl⟩⟩
    | opt p =>
      simp only [Pattern.lead] at hfuel
      obtain ⟨_ | r, b, hrun⟩ := ih (p := p) hp s m (by omega) a
      · exact ⟨_, b, bind_apply_eq_some.2 ⟨_, _, hrun, rfl⟩⟩
      · exact ⟨_, b, bind_apply_eq_some.2 ⟨_, _, hrun, rfl⟩⟩
    | star p =>
      -- what is repeated reads at least a character, which pays for the next round
      have hstar := hp
      simp only [Pattern.steady, Bool.and_eq_true, decide_eq_true_eq] at hp
      simp only [Pattern.lead] at hfuel
      obtain ⟨_ | ⟨n, ts⟩, b, hrun⟩ := ih hp.1.1 s m (by omega) a
      · exact ⟨_, b, bind_apply_eq_some.2 ⟨_, _, hrun, rfl⟩⟩
      · have hleft : n.rest.length * g.fuelPerChar + (1 + p.lead rules depth) ≤ fuel :=
          hg.fuel_le (yields_of_run hrun) hp.2 (by rw [if_pos hp.1.2]; omega)
        obtain ⟨_ | ⟨k, us⟩, c, hrun'⟩ := ih hstar s n hleft b
        · exact ⟨_, c, bind_apply_eq_some.2 ⟨_, _, hrun, bind_apply_eq_some.2 ⟨_, _, hrun', rfl⟩⟩⟩
        · exact ⟨_, c, bind_apply_eq_some.2 ⟨_, _, hrun, bind_apply_eq_some.2 ⟨_, _, hrun', rfl⟩⟩⟩
    | notHere p =>
      simp only [Pattern.lead] at hfuel
      obtain ⟨_ | r, b, hrun⟩ := ih (p := p) hp true m (by omega) a
      · exact ⟨_, b, bind_apply_eq_some.2 ⟨_, _, hrun, rfl⟩⟩
      · exact ⟨_, b, bind_apply_eq_some.2 ⟨_, _, hrun, rfl⟩⟩
    | rule q =>
      -- no rule reaches itself without reading: its body leads by less than the rule
      have hlead := hg.lead_le q
      simp only [Pattern.lead] at hfuel
      obtain ⟨_ | ⟨n, ts⟩, b, hrun⟩ := ih (hg.steady q) (s || g.isAtomic q) m (by omega) a
      · cases s
        · exact ⟨none, _, bind_apply_eq_some.2 ⟨_, _, rfl, bind_apply_eq_some.2 ⟨_, _, hrun, rfl⟩⟩⟩
        · exact ⟨none, _, bind_apply_eq_some.2 ⟨_, _, rfl, bind_apply_eq_some.2 ⟨_, _, hrun, rfl⟩⟩⟩
      · exact ⟨_, b, bind_apply_eq_some.2 ⟨_, _, rfl, bind_apply_eq_some.2 ⟨_, _, hrun, rfl⟩⟩⟩

theorem exists_yields {p : Pattern ρ} (hp : p.steady rules depth g.fuelPerChar = true)
    (s : Bool) (m : Mark) : ∃ r, g.Yields s p m r := by
  obtain ⟨r, _, hrun⟩ := hg.exists_run hp s m le_rfl .none
  exact ⟨r, yields_of_run hrun⟩

/-- A text is read as a rule exactly if the rule matches at its beginning. -/
theorem parse_eq_ok [BEq ρ] {r : ρ} {source : List Char} {t : Token ρ} :
    g.parse r source = .ok t ↔ ∃ n, g.Yields false (.rule r) (.start source) (some (n, [t])) := by
  have hfuel : source.length * g.fuelPerChar + (1 + depth r) ≤ g.fuel source := by
    have hdepth := hg.depth_lt r
    rw [Grammar.fuel, ← fuelPerChar, Nat.add_mul]
    omega
  obtain ⟨r', a, hrun⟩ := hg.exists_run (p := .rule r) rfl false (.start source) hfuel .none
  have hyields := yields_of_run hrun
  rw [Grammar.parse, hrun]
  constructor
  · intro h
    split at h
    · rename_i n t' a' heq
      cases heq
      cases h
      exact ⟨n, hyields⟩
    · cases h
    · cases h
  · rintro ⟨n, hn⟩
    cases hyields.unique hn
    rfl

end Steady

end Grammar

/-! ### The grammar of models -/

namespace Rule

/-- Whether a rule never matches the empty text. -/
def eats (r : Rule) : Bool := r != endOfInput

/-- The depth of the rules, with rules nested so deep at most before a character is read. -/
def lead : (nesting : ℕ) → Rule → ℕ
  | 0, _ => 0
  | nesting + 1, r => r.body.lead eats (lead nesting)

end Rule

theorem modelGrammar_steady : modelGrammar.Steady Rule.eats (Rule.lead 9) where
  eats r := by cases r <;> decide
  lead_le r := by cases r <;> decide
  depth_lt r := by cases r <;> decide
  steady r := by cases r <;> decide

theorem parseRule_eq_ok {α : Type} {r : Rule} {source : List Char} {t : Token Rule} :
    parseRule (α := α) r source = .ok t ↔
      ∃ n, modelGrammar.Yields false (.rule r) (.start source) (some (n, [t])) := by
  rw [← modelGrammar_steady.parse_eq_ok, parseRule]
  cases modelGrammar.parse r source <;> simp

end ModalBounds
