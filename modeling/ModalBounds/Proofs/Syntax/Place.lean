import ModalBounds.Proofs.Failure
import ModalBounds.Proofs.Syntax.Yields
import ModalBounds.Syntax.Source

/-!
# Places in a source

A place in a source is the number of bytes of its first characters. Marks that are reached by
reading are places, so the tokens of a source and the rules that fail in it are too
(`occurs_of_parse`, `isPlace_of_parse`), and lines and columns count the characters before a place
(`lineColumn_byteLength`).
-/

namespace ModalBounds

theorem utf8ByteSize_ofList (cs : List Char) : (String.ofList cs).utf8ByteSize = byteLength cs := by
  rw [String.utf8ByteSize_ofList]
  induction cs with
  | nil => rfl
  | cons c cs ih => rw [String.utf8Len, byteLength, ih, Nat.add_comm]

/-- A number of bytes that ends between two characters. -/
def IsPlace (source : List Char) (offset : ℕ) :
    Prop := ∃ before after, source = before ++ after ∧ offset = byteLength before

/-- The end of a text that is on its last line. -/
def lastLine (text : List Char) : List Char := text.rtakeWhile (· != '\n')

theorem lastLine_append_newline (text : List Char) : lastLine (text ++ ['\n']) = [] := by
  rw [lastLine, List.rtakeWhile_concat_neg]
  decide

theorem lastLine_append_of_not_mem {line : List Char} (h : '\n' ∉ line) (text : List Char) :
    lastLine (text ++ line) = lastLine text ++ line := by
  induction line using List.reverseRecOn with
  | nil => simp
  | append_singleton line c ih =>
    rw [List.mem_append, List.mem_singleton, not_or] at h
    rw [← List.append_assoc, lastLine,
      List.rtakeWhile_concat_pos _ _ _ (by simpa using Ne.symm h.2), ← lastLine, ih h.1,
      List.append_assoc]

theorem lastLine_of_not_mem {line : List Char} (h : '\n' ∉ line) : lastLine line = line :=
  lastLine_append_of_not_mem h []

/-- The line and the column after one more character. -/
def advance (p : ℕ × ℕ) (c : Char) : ℕ × ℕ := if c = '\n' then (p.1 + 1, 1) else (p.1, p.2 + 1)

theorem lineColumn_go (before after : List Char) (line column : ℕ) :
    lineColumn.go (byteLength before) (before ++ after) line column =
      before.foldl advance (line, column) := by
  induction before generalizing line column with
  | nil => cases after <;> simp [lineColumn.go, byteLength]
  | cons c cs ih =>
    have hsize : c.utf8Size + byteLength cs ≠ 0 := by
      have := c.utf8Size_pos
      omega
    rw [byteLength, List.cons_append, lineColumn.go, if_neg hsize, Nat.add_sub_cancel_left, ih, ih,
      List.foldl_cons, advance]
    split <;> rfl

theorem foldl_advance (before : List Char) :
    before.foldl advance (1, 1) = (1 + before.count '\n', 1 + (lastLine before).length) := by
  induction before using List.reverseRecOn with
  | nil => rfl
  | append_singleton before c ih =>
    rw [List.foldl_append, ih, List.foldl_cons, List.foldl_nil, advance]
    split_ifs with hc
    · subst hc
      rw [lastLine_append_newline, List.count_append, List.count_singleton_self, Nat.add_assoc]
      rfl
    · rw [lastLine_append_of_not_mem (by simpa using Ne.symm hc), List.length_append,
        List.count_append, List.count_singleton, if_neg (by simpa using hc)]
      rfl

/-- The line and the column of a place count the lines and the characters of the line before it. -/
theorem lineColumn_byteLength (before after : List Char) :
    lineColumn (byteLength before) (before ++ after) =
      (1 + before.count '\n', 1 + (lastLine before).length) := by
  rw [lineColumn, lineColumn_go, foldl_advance]

/-! ### Marks and attempts -/

theorem Mark.Spans.isPlace {source cs : List Char} {m : Mark} (h : (Mark.start source).Spans cs m) :
    IsPlace source m.offset := by
  refine ⟨cs, m.rest, h.rest, ?_⟩
  rw [h.offset]
  exact Nat.zero_add _

theorem Attempts.offset_add {ρ : Type} (a : Attempts ρ) (rule : ρ) (offset before : ℕ) :
    (a.add rule offset before).offset = a.offset ∨ (a.add rule offset before).offset = offset := by
  unfold Attempts.add
  split_ifs
  · exact .inl rfl
  · exact .inr rfl
  · exact .inr rfl
  · exact .inl rfl

namespace Grammar

variable {ρ : Type} {g : Grammar ρ} {s : Bool} {p : Pattern ρ} {m : Mark} {r : Match ρ}

/-- The attempts that are remembered were made at marks that the pattern reached. -/
theorem attempts_of_run {P : ℕ → Prop} {fuel : ℕ} {a a' : Attempts ρ}
    (h : g.run fuel s p m a = some (r, a'))
    (hm : ∀ cs n, m.Spans cs n → P n.offset) (ha : P a.offset) : P a'.offset := by
  -- a mark that is reached reaches no others
  have hreached {p : Pattern ρ} {m n : Mark} {s ts fuel a a'}
      (h : g.run fuel s p m a = some (some (n, ts), a'))
      (hm : ∀ cs k, m.Spans cs k → P k.offset) : ∀ cs k, n.Spans cs k → P k.offset := by
    intro ds k hk
    obtain ⟨cs, hcs⟩ := (yields_of_run h).exists_spans
    exact hm _ k (hcs.trans hk)
  induction fuel generalizing s p m r a a' with
  | zero => cases h
  | succ fuel ih =>
    cases p with
    | atStart | atEnd | char | blank =>
      obtain ⟨-, rfl⟩ := pure_apply_eq_some.1 h
      exact ha
    | seq p q =>
      obtain ⟨_ | ⟨n, ts⟩, b, hp, h⟩ := bind_apply_eq_some.1 h
      · obtain ⟨-, rfl⟩ := pure_apply_eq_some.1 h
        exact ih hp hm ha
      · obtain ⟨_ | ⟨k, us⟩, b', hq, h⟩ := bind_apply_eq_some.1 h <;> obtain ⟨-, rfl⟩ :=
          pure_apply_eq_some.1 h
        · exact ih hq (hreached hp hm) (ih hp hm ha)
        · exact ih hq (hreached hp hm) (ih hp hm ha)
    | alt p q =>
      obtain ⟨_ | ⟨n, ts⟩, b, hp, h⟩ := bind_apply_eq_some.1 h
      · exact ih h hm (ih hp hm ha)
      · obtain ⟨-, rfl⟩ := pure_apply_eq_some.1 h
        exact ih hp hm ha
    | opt p | notHere p =>
      obtain ⟨_ | ⟨n, ts⟩, b, hp, h⟩ := bind_apply_eq_some.1 h <;> obtain ⟨-, rfl⟩ :=
        pure_apply_eq_some.1 h
      · exact ih hp hm ha
      · exact ih hp hm ha
    | star p =>
      obtain ⟨_ | ⟨n, ts⟩, b, hp, h⟩ := bind_apply_eq_some.1 h
      · obtain ⟨-, rfl⟩ := pure_apply_eq_some.1 h
        exact ih hp hm ha
      · obtain ⟨_ | ⟨k, us⟩, b', hq, h⟩ := bind_apply_eq_some.1 h <;> obtain ⟨-, rfl⟩ :=
          pure_apply_eq_some.1 h
        · exact ih hq (hreached hp hm) (ih hp hm ha)
        · exact ih hq (hreached hp hm) (ih hp hm ha)
    | rule q =>
      obtain ⟨_, _, hget, h⟩ := bind_apply_eq_some.1 h
      cases hget
      obtain ⟨_ | ⟨n, ts⟩, b, hp, h⟩ := bind_apply_eq_some.1 h
      · dsimp only at h
        split at h
        · obtain ⟨_, _, hmodify, h⟩ := bind_apply_eq_some.1 h
          cases hmodify
          obtain ⟨-, rfl⟩ := pure_apply_eq_some.1 h
          rcases b.offset_add q m.offset (a.countAt m.offset) with hb | hb
          · rw [hb]
            exact ih hp hm ha
          · rw [hb]
            exact hm [] m (.refl m)
        · obtain ⟨-, rfl⟩ := pure_apply_eq_some.1 h
          exact ih hp hm ha
      · obtain ⟨-, rfl⟩ := pure_apply_eq_some.1 h
        exact ih hp hm ha

variable {source : List Char}

theorem Occurs.exists_stretch {t : Token ρ} (h : g.Occurs (.start source) t) :
    ∃ before inside after, source = before ++ inside ++ after ∧
      t.start.offset = byteLength before ∧ t.stop.offset = byteLength (before ++ inside) := by
  obtain ⟨before, hbefore⟩ := h.start
  obtain ⟨inside, hinside⟩ := h.yields.exists_spans
  have hstart : t.start.offset = byteLength before := by
    rw [hbefore.offset]
    exact Nat.zero_add _
  refine ⟨before, inside, t.stop.rest, ?_, hstart, ?_⟩
  · exact (hbefore.trans hinside).rest
  · rw [hinside.offset, hstart, byteLength_append]

variable [BEq ρ] {rule : ρ}

theorem occurs_of_parse {t : Token ρ} (h : g.parse rule source = .ok t) :
    g.Occurs (.start source) t := by
  unfold parse at h
  split at h
  · rename_i n t' a hrun
    cases h
    exact (yields_of_run hrun).occurs t (List.mem_singleton_self t)
  · cases h
  · cases h

/-- What was expected was so at a place of the source. -/
theorem isPlace_of_parse {e : Mismatch ρ} (h : g.parse rule source = .error e) :
    IsPlace source e.offset := by
  have hstart : IsPlace source 0 := ⟨[], source, rfl, rfl⟩
  unfold parse at h
  split at h
  · cases h
  · rename_i r a _ hrun
    cases h
    exact attempts_of_run hrun (fun cs n hn => hn.isPlace) hstart
  · cases h
    exact hstart

end Grammar

/-! ### Errors of reading -/

variable {α : Type}

/-- An error names a stretch of the source that was read. -/
def ModelError.IsWithin (source : List Char) (e : ModelError α) : Prop :=
  ∃ cause before inside after, source = before ++ inside ++ after ∧
    e = .parse cause (Span.between source (byteLength before) (byteLength (before ++ inside)))

theorem isWithin_failAt {β : Type} {P : β → Prop} {source : List Char} {t : Token Rule}
    (h : modelGrammar.Occurs (.start source) t) (cause : SyntaxError α) :
    Ends (ModelError.IsWithin source) P (failAt source t cause) := by
  obtain ⟨before, inside, after, hsource, hstart, hstop⟩ := h.exists_stretch
  refine ⟨cause, before, inside, after, hsource, ?_⟩
  rw [Token.span, hstart, hstop]

theorem isWithin_parseRule (rule : Rule) (source : List Char) :
    Ends (ModelError.IsWithin source) (modelGrammar.Occurs (.start source))
      (parseRule rule source : Except (ModelError α) _) := by
  unfold parseRule
  split
  · rename_i t ht
    exact Grammar.occurs_of_parse ht
  · rename_i e he
    obtain ⟨before, after, hsource, hoffset⟩ := Grammar.isPlace_of_parse he
    refine ⟨.expected e.expected, before, [], after, ?_, ?_⟩
    · rw [List.append_nil]
      exact hsource
    · rw [hoffset, List.append_nil]

end ModalBounds
