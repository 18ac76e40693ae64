import Mathlib
import ModalBounds.Syntax.Pattern

/-!
# What a pattern matches

`Grammar.Yields` says what a pattern makes of a place in a text, without fuel and without the
attempts that messages need: it is the relation that `Grammar.run` computes (`yields_of_run`), and
there is one result at most (`Yields.unique`). A match lies between two places
(`Yields.exists_spans`), and every token in it is a match of its rule (`Yields.occurs`).
-/

namespace ModalBounds

@[simp] theorem byteLength_append (cs ds : List Char) :
    byteLength (cs ++ ds) = byteLength cs + byteLength ds := by
  induction cs with
  | nil => simp [byteLength]
  | cons c cs ih => rw [List.cons_append, byteLength, byteLength, ih, Nat.add_assoc]

/-- `cs` is the text between two places. -/
structure Mark.Spans (m : Mark) (cs : List Char) (n : Mark) : Prop where
  rest : m.rest = cs ++ n.rest
  index : n.index = m.index + cs.length
  offset : n.offset = m.offset + byteLength cs

namespace Mark

variable {m n k : Mark} {cs ds : List Char}

theorem Spans.refl (m : Mark) : m.Spans [] m := ⟨rfl, rfl, rfl⟩

theorem Spans.trans (h : m.Spans cs n) (h' : n.Spans ds k) : m.Spans (cs ++ ds) k := by
  refine ⟨?_, ?_, ?_⟩
  · rw [h.rest, h'.rest, List.append_assoc]
  · rw [h'.index, h.index, List.length_append, Nat.add_assoc]
  · rw [h'.offset, h.offset, byteLength_append, Nat.add_assoc]

theorem Spans.until_eq (h : m.Spans cs n) : m.until n = cs := by
  rw [Mark.until, h.index, h.rest, Nat.add_sub_cancel_left, List.take_left]

theorem Spans.length_le (h : m.Spans cs n) : n.rest.length ≤ m.rest.length := by
  simp [h.rest]

theorem Spans.length_lt (h : m.Spans cs n) (hcs : cs ≠ []) : n.rest.length < m.rest.length := by
  rw [h.rest, List.length_append]
  have := List.length_pos_iff.2 hcs
  omega

theorem spans_of_next? {c : Char} (h : m.next? = some (c, n)) : m.Spans [c] n := by
  obtain ⟨o, i, rest⟩ := m
  cases rest with
  | nil => cases h
  | cons d rest =>
    cases h
    exact ⟨rfl, rfl, rfl⟩

theorem spans_skipBlanks (isBlank : Char → Bool) (m : Mark) :
    m.Spans (m.rest.takeWhile isBlank) (skipBlanks isBlank m) :=
  ⟨List.takeWhile_append_dropWhile.symm, rfl, rfl⟩

end Mark

/-- The rules whose tokens a pattern leaves. -/
def Pattern.rules {ρ : Type} : Pattern ρ → List ρ
  | seq a b => a.rules ++ b.rules
  | alt a b => a.rules ++ b.rules
  | opt a => a.rules
  | star a => a.rules
  | rule r => [r]
  | _ => []

/-- The result of a match after some tokens. -/
def Match.after {ρ : Type} (ts : List (Token ρ)) (r : Match ρ) :
    Match ρ := r.map fun (n, us) => (n, ts ++ us)

@[simp] theorem Match.after_none {ρ : Type} (ts : List (Token ρ)) :
    Match.after ts none = none := rfl

@[simp] theorem Match.after_some {ρ : Type} (ts us : List (Token ρ)) (n : Mark) :
    Match.after ts (some (n, us)) = some (n, ts ++ us) := rfl

namespace Grammar

variable {ρ : Type}

/-- A pattern has this result at a place. Where `silent`, rules leave no tokens. -/
inductive Yields (g : Grammar ρ) : (silent : Bool) → Pattern ρ → Mark → Match ρ → Prop
  | atStart {s m} : m.offset = 0 → Yields g s .atStart m (some (m, []))
  | atStart_not {s m} : m.offset ≠ 0 → Yields g s .atStart m none
  | atEnd {s m} : m.rest = [] → Yields g s .atEnd m (some (m, []))
  | atEnd_not {s m} : m.rest ≠ [] → Yields g s .atEnd m none
  | char {s p m n c} : m.next? = some (c, n) → p c = true → Yields g s (.char p) m (some (n, []))
  | char_not {s p m} : (∀ c n, m.next? = some (c, n) → p c = false) → Yields g s (.char p) m none
  | blank {s m} : Yields g s .blank m (some (skipBlanks g.isBlank m, []))
  | seq {s a b m n ts r} : Yields g s a m (some (n, ts)) → Yields g s b n r →
      Yields g s (.seq a b) m (r.after ts)
  | seq_not {s a b m} : Yields g s a m none → Yields g s (.seq a b) m none
  | alt_first {s a b m n ts} : Yields g s a m (some (n, ts)) →
    Yields g s (.alt a b) m (some (n, ts))
  | alt_second {s a b m r} : Yields g s a m none → Yields g s b m r → Yields g s (.alt a b) m r
  | opt_some {s a m n ts} : Yields g s a m (some (n, ts)) → Yields g s (.opt a) m (some (n, ts))
  | opt_none {s a m} : Yields g s a m none → Yields g s (.opt a) m (some (m, []))
  | star_more {s a m n ts r} : Yields g s a m (some (n, ts)) → Yields g s (.star a) n r →
      Yields g s (.star a) m (r.after ts)
  | star_done {s a m} : Yields g s a m none → Yields g s (.star a) m (some (m, []))
  | notHere {s a m} : Yields g true a m none → Yields g s (.notHere a) m (some (m, []))
  | notHere_not {s a m n ts} : Yields g true a m (some (n, ts)) → Yields g s (.notHere a) m none
  | rule {s r m n ts} : Yields g (s || g.isAtomic r) (g.body r) m (some (n, ts)) →
      Yields g s (.rule r) m (some (n, if s then [] else [.node r m n ts]))
  | rule_not {s r m} : Yields g (s || g.isAtomic r) (g.body r) m none → Yields g s (.rule r) m none

namespace Yields

variable {g : Grammar ρ} {s : Bool} {p : Pattern ρ} {m n : Mark} {ts : List (Token ρ)}

theorem unique {r r' : Match ρ} (h : g.Yields s p m r) (h' : g.Yields s p m r') : r = r' := by
  induction h generalizing r' with
  | atStart | atStart_not | atEnd | atEnd_not => cases h' <;> first | rfl | contradiction
  | char hc hp =>
    cases h' with
    | char hc' => rw [hc] at hc'; cases hc'; rfl
    | char_not hn => rw [hn _ _ hc] at hp; cases hp
  | char_not hn =>
    cases h' with
    | char hc hp => rw [hn _ _ hc] at hp; cases hp
    | char_not => rfl
  | blank => cases h'; rfl
  | seq _ _ iha ihb =>
    cases h' with
    | seq ha hb => cases iha ha; rw [ihb hb]
    | seq_not ha => cases iha ha
  | seq_not _ iha =>
    cases h' with
    | seq ha hb => cases iha ha
    | seq_not => rfl
  | alt_first _ iha =>
    cases h' with
    | alt_first ha => exact iha ha
    | alt_second ha => cases iha ha
  | alt_second _ _ iha ihb =>
    cases h' with
    | alt_first ha => cases iha ha
    | alt_second _ hb => exact ihb hb
  | opt_some _ iha =>
    cases h' with
    | opt_some ha => exact iha ha
    | opt_none ha => cases iha ha
  | opt_none _ iha =>
    cases h' with
    | opt_some ha => cases iha ha
    | opt_none => rfl
  | star_more _ _ iha ihb =>
    cases h' with
    | star_more ha hb => cases iha ha; rw [ihb hb]
    | star_done ha => cases iha ha
  | star_done _ iha =>
    cases h' with
    | star_more ha => cases iha ha
    | star_done => rfl
  | notHere _ iha =>
    cases h' with
    | notHere => rfl
    | notHere_not ha => cases iha ha
  | notHere_not _ iha =>
    cases h' with
    | notHere ha => cases iha ha
    | notHere_not => rfl
  | rule _ ih =>
    cases h' with
    | rule h => cases ih h; rfl
    | rule_not h => cases ih h
  | rule_not _ ih =>
    cases h' with
    | rule h => cases ih h
    | rule_not => rfl

theorem star_ne_none {a : Pattern ρ} {r : Match ρ} (h : g.Yields s (.star a) m r) : r ≠ none := by
  generalize hp : Pattern.star a = p at h
  induction h with
  | star_more _ _ _ ih =>
    obtain ⟨⟨n, us⟩, rfl⟩ := Option.ne_none_iff_exists'.1 (ih hp)
    simp
  | star_done => simp
  | _ => cases hp

/-- A match is of the text between two places. -/
theorem exists_spans (h : g.Yields s p m (some (n, ts))) : ∃ cs, m.Spans cs n := by
  generalize hr : some (n, ts) = r at h
  induction h generalizing n ts with
  | atStart | atEnd | opt_none | star_done | notHere => cases hr; exact ⟨[], .refl _⟩
  | atStart_not | atEnd_not | char_not | seq_not | notHere_not | rule_not => cases hr
  | char hc => cases hr; exact ⟨_, Mark.spans_of_next? hc⟩
  | blank => cases hr; exact ⟨_, Mark.spans_skipBlanks _ _⟩
  | @seq _ _ _ _ k us r _ _ iha ihb | @star_more _ _ _ k us r _ _ iha ihb =>
    obtain ⟨cs, hcs⟩ := iha rfl
    cases r with
    | none => cases hr
    | some r =>
      cases hr
      obtain ⟨ds, hds⟩ := ihb rfl
      exact ⟨cs ++ ds, hcs.trans hds⟩
  | alt_first _ ih | opt_some _ ih => exact ih hr
  | alt_second _ _ _ ih => exact ih hr
  | rule _ ih => cases hr; exact ih rfl

theorem eq_nil_of_silent (h : g.Yields true p m (some (n, ts))) : ts = [] := by
  generalize hr : some (n, ts) = r at h
  generalize hs : true = s at h
  induction h generalizing n ts with
  | atStart | atEnd | opt_none | star_done | notHere | char | blank => cases hr; rfl
  | atStart_not | atEnd_not | char_not | seq_not | notHere_not | rule_not => cases hr
  | @seq _ _ _ _ k us r _ _ iha ihb | @star_more _ _ _ k us r _ _ iha ihb =>
    cases r with
    | none => cases hr
    | some r =>
      cases hr
      rw [iha rfl hs, ihb rfl hs, List.append_nil]
  | alt_first _ ih | opt_some _ ih => exact ih hr hs
  | alt_second _ _ _ ih => exact ih hr hs
  | rule => cases hr; rw [← hs]; rfl

end Yields

/-! ### Tokens -/

/-- A token that is a match of its rule, as are all those inside it. -/
inductive Derived (g : Grammar ρ) : Token ρ → Prop
  | node {r m n ts} : g.Yields (g.isAtomic r) (g.body r) m (some (n, ts)) →
    (∀ t ∈ ts, Derived g t) →
      Derived g (.node r m n ts)

/-- A token is a match of its rule, at a place or after it. -/
structure Occurs (g : Grammar ρ) (m : Mark) (t : Token ρ) : Prop where
  derived : g.Derived t
  start : ∃ cs, m.Spans cs t.start

section
variable {g : Grammar ρ} {s : Bool} {p : Pattern ρ} {m n : Mark} {t : Token ρ} {ts : List (Token ρ)}

namespace Occurs

theorem of_spans {cs : List Char} (hcs : m.Spans cs n) (h : g.Occurs n t) : g.Occurs m t := by
  obtain ⟨ds, hds⟩ := h.start
  exact ⟨h.derived, cs ++ ds, hcs.trans hds⟩

theorem rest_subset (h : g.Occurs m t) : t.start.rest ⊆ m.rest := by
  obtain ⟨cs, hcs⟩ := h.start
  rw [hcs.rest]
  exact List.subset_append_right ..

theorem yields (h : g.Occurs m t) :
    g.Yields (g.isAtomic t.rule) (g.body t.rule) t.start (some (t.stop, t.parts)) := by
  cases h.derived with
  | node hbody _ => exact hbody

end Occurs

theorem Yields.occurs_and_rule_mem (h : g.Yields s p m (some (n, ts))) :
    ∀ t ∈ ts, g.Occurs m t ∧ t.rule ∈ p.rules := by
  generalize hr : some (n, ts) = r at h
  induction h generalizing n ts with
  | atStart | atEnd | opt_none | star_done | notHere | char | blank => cases hr; simp
  | atStart_not | atEnd_not | char_not | seq_not | notHere_not | rule_not => cases hr
  | @seq _ a b _ k us r ha _ iha ihb =>
    cases r with
    | none => cases hr
    | some r =>
      cases hr
      obtain ⟨cs, hcs⟩ := ha.exists_spans
      intro t ht
      rcases List.mem_append.1 ht with ht | ht
      · exact ⟨(iha rfl t ht).1, List.mem_append_left _ (iha rfl t ht).2⟩
      · exact ⟨(ihb rfl t ht).1.of_spans hcs, List.mem_append_right _ (ihb rfl t ht).2⟩
  | @star_more _ a _ k us r ha _ iha ihb =>
    cases r with
    | none => cases hr
    | some r =>
      cases hr
      obtain ⟨cs, hcs⟩ := ha.exists_spans
      intro t ht
      rcases List.mem_append.1 ht with ht | ht
      · exact iha rfl t ht
      · exact ⟨(ihb rfl t ht).1.of_spans hcs, (ihb rfl t ht).2⟩
  | alt_first _ ih => exact fun t ht => ⟨(ih hr t ht).1, List.mem_append_left _ (ih hr t ht).2⟩
  | alt_second _ _ _ ih =>
    exact fun t ht => ⟨(ih hr t ht).1, List.mem_append_right _ (ih hr t ht).2⟩
  | opt_some _ ih => exact ih hr
  | @rule s r m k us h ih =>
    cases hr
    cases s with
    | true => simp
    | false =>
      intro t ht
      obtain rfl := List.mem_singleton.1 ht
      exact ⟨⟨.node h fun u hu => (ih rfl u hu).1.derived, [], .refl _⟩, List.mem_singleton_self _⟩

theorem Yields.occurs (h : g.Yields s p m (some (n, ts))) : ∀ t ∈ ts, g.Occurs m t :=
  fun t ht => (h.occurs_and_rule_mem t ht).1

theorem Yields.rule_mem (h : g.Yields s p m (some (n, ts))) : ∀ t ∈ ts, t.rule ∈ p.rules :=
  fun t ht => (h.occurs_and_rule_mem t ht).2

theorem Occurs.parts (h : g.Occurs m t) : ∀ u ∈ t.parts, g.Occurs m u := by
  intro u hu
  obtain ⟨cs, hcs⟩ := h.start
  exact (h.yields.occurs u hu).of_spans hcs

end

/-! ### Running a pattern -/

section
variable {σ β γ : Type}

theorem bind_apply_eq_some {x : StateT σ Option β} {f : β → StateT σ Option γ} {a : σ} {r : γ × σ} :
    (x >>= f) a = some r ↔ ∃ y b, x a = some (y, b) ∧ f y b = some r := by
  show (x a).bind (fun yb => f yb.1 yb.2) = some r ↔ _
  simp [Option.bind_eq_some_iff]

theorem pure_apply_eq_some {x y : β} {a b : σ} :
    (pure x : StateT σ Option β) a = some (y, b) ↔ x = y ∧ a = b := by
  show some (x, a) = some (y, b) ↔ _
  simp

end

section
variable {g : Grammar ρ} {s : Bool} {p : Pattern ρ} {m : Mark} {r : Match ρ}

theorem yields_of_run {fuel : ℕ} {a a' : Attempts ρ} (h : g.run fuel s p m a = some (r, a')) :
    g.Yields s p m r := by
  induction fuel generalizing s p m r a a' with
  | zero => cases h
  | succ fuel ih =>
    cases p with
    | atStart =>
      obtain ⟨rfl, -⟩ := pure_apply_eq_some.1 h
      split
      · exact .atStart ‹_›
      · exact .atStart_not ‹_›
    | atEnd =>
      obtain ⟨rfl, -⟩ := pure_apply_eq_some.1 h
      split
      · exact .atEnd (List.isEmpty_iff.1 ‹_›)
      · exact .atEnd_not fun hm => ‹¬ _› (List.isEmpty_iff.2 hm)
    | char p =>
      obtain ⟨rfl, -⟩ := pure_apply_eq_some.1 h
      split
      · rename_i c n hc
        split
        · exact .char hc ‹_›
        · rename_i hp
          refine .char_not fun d k hd => ?_
          rw [hc] at hd
          cases hd
          exact Bool.eq_false_iff.2 hp
      · rename_i hc
        exact .char_not fun d k hd => by rw [hc] at hd; cases hd
    | blank =>
      obtain ⟨rfl, -⟩ := pure_apply_eq_some.1 h
      exact .blank
    | seq p q =>
      obtain ⟨_ | ⟨n, ts⟩, b, hp, h⟩ := bind_apply_eq_some.1 h
      · obtain ⟨rfl, -⟩ := pure_apply_eq_some.1 h
        exact .seq_not (ih hp)
      · obtain ⟨_ | ⟨k, us⟩, b', hq, h⟩ := bind_apply_eq_some.1 h <;> obtain ⟨rfl, -⟩ :=
          pure_apply_eq_some.1 h
        · exact .seq (ih hp) (ih hq)
        · exact .seq (ih hp) (ih hq)
    | alt p q =>
      obtain ⟨_ | ⟨n, ts⟩, b, hp, h⟩ := bind_apply_eq_some.1 h
      · exact .alt_second (ih hp) (ih h)
      · obtain ⟨rfl, -⟩ := pure_apply_eq_some.1 h
        exact .alt_first (ih hp)
    | opt p =>
      obtain ⟨_ | ⟨n, ts⟩, b, hp, h⟩ := bind_apply_eq_some.1 h <;> obtain ⟨rfl, -⟩ :=
        pure_apply_eq_some.1 h
      · exact .opt_none (ih hp)
      · exact .opt_some (ih hp)
    | star p =>
      obtain ⟨_ | ⟨n, ts⟩, b, hp, h⟩ := bind_apply_eq_some.1 h
      · obtain ⟨rfl, -⟩ := pure_apply_eq_some.1 h
        exact .star_done (ih hp)
      · obtain ⟨_ | ⟨k, us⟩, b', hq, h⟩ := bind_apply_eq_some.1 h <;> obtain ⟨rfl, -⟩ :=
          pure_apply_eq_some.1 h
        -- a repetition never fails, so neither does the rest of one
        · exact absurd rfl (ih hq).star_ne_none
        · exact .star_more (ih hp) (ih hq)
    | notHere p =>
      obtain ⟨_ | ⟨n, ts⟩, b, hp, h⟩ := bind_apply_eq_some.1 h <;> obtain ⟨rfl, -⟩ :=
        pure_apply_eq_some.1 h
      · exact .notHere (ih hp)
      · exact .notHere_not (ih hp)
    | rule q =>
      obtain ⟨_, _, -, h⟩ := bind_apply_eq_some.1 h
      obtain ⟨_ | ⟨n, ts⟩, b, hp, h⟩ := bind_apply_eq_some.1 h
      · have hr : none = r := by
          dsimp only at h
          split at h
          · obtain ⟨_, _, -, h⟩ := bind_apply_eq_some.1 h
            exact (pure_apply_eq_some.1 h).1
          · exact (pure_apply_eq_some.1 h).1
        subst hr
        exact .rule_not (ih hp)
      · obtain ⟨rfl, -⟩ := pure_apply_eq_some.1 h
        exact .rule (ih hp)

end

end Grammar

end ModalBounds
