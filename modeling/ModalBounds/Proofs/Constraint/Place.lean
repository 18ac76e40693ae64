import ModalBounds.Proofs.Syntax.Place
import ModalBounds.Proofs.Constraint.Block

/-!
# Places in blocks of constraints

The error of one constraint names a stretch of its text (`failsWithin_readLine`). A block reads its
lines without what is around the constraints, and adds the bytes and the lines before them to the
places in their errors (`readLines_isPlaced`), but not the white space that begins the line to the
columns (`span_of_readBlock`).
-/

namespace ModalBounds

/-! ### Errors of one constraint -/

/-- If this reading fails, its error names a stretch of the source. -/
def FailsWithin {α β : Type} (source : List Char) (x : Except (ModelError α) β) : Prop :=
  Ends (ModelError.IsWithin source) (fun _ => True) x

theorem FailsWithin.bind {α β γ : Type} {source : List Char} {x : Except (ModelError α) β}
    {f : β → Except (ModelError α) γ} (hx : FailsWithin source x)
    (hf : ∀ b, FailsWithin source (f b)) : FailsWithin source (x >>= f) :=
  Ends.bind hx fun b _ => hf b

/-- The place of an error of reading. -/
def ModelError.span? {α : Type} : ModelError α → Option Span
  | .parse _ span => some span
  | _ => none

theorem exists_error_of_span? {α β : Type} {x : Except (ModelError α) β} {span : Span}
    (h : Ends (fun e => e.span? = some span) (fun _ => False) x) :
    ∃ cause, x = .error (.parse cause span) := by
  cases x with
  | ok b => exact h.elim
  | error e =>
    cases e with
    | parse cause place =>
      cases h
      exact ⟨cause, rfl⟩
    | _ => cases h

theorem Interval.of_eq_error {α : Type} [Scalar α] {a b : α} {e : ModelError α}
    (h : Interval.of a b = .error e) : ∃ lower upper, e = .invalidInterval lower upper := by
  unfold Interval.of at h
  split at h
  split_ifs at h
  cases h
  exact ⟨_, _, rfl⟩

namespace ShapeConstraint

variable {α : Type} {source : List Char} {t : Token Rule} {ts : List (Token Rule)}

theorem failsWithin_failAt {β : Type} (h : modelGrammar.Occurs (.start source) t)
    (cause : SyntaxError α) :
    FailsWithin source (failAt source t cause : Except (ModelError α) β) := isWithin_failAt h cause

theorem failsWithin_derivativeOf (h : modelGrammar.Occurs (.start source) t)
    (parts : List (Token Rule)) :
    FailsWithin source (derivativeOf source t parts : Except (ModelError α) _) := by
  unfold derivativeOf
  dsimp only
  split
  · exact failsWithin_failAt h _
  · split
    · trivial
    · split_ifs
      · trivial
      · exact failsWithin_failAt h _
    · exact failsWithin_failAt h _

theorem failsWithin_targetOf (h : modelGrammar.Occurs (.start source) t) :
    FailsWithin source (targetOf source t : Except (ModelError α) _) := by
  unfold targetOf
  split
  · trivial
  · exact (failsWithin_derivativeOf h _).bind fun _ => trivial
  · exact failsWithin_failAt h _

variable [Scalar α] [Numeral α]

theorem failsWithin_boundOf (h : modelGrammar.Occurs (.start source) t) :
    FailsWithin source (boundOf source t : Except (ModelError α) α) := by
  unfold boundOf
  dsimp only
  split
  · trivial
  · exact failsWithin_failAt h _

theorem failsWithin_intervalOf (h : modelGrammar.Occurs (.start source) t) :
    FailsWithin source (intervalOf source t : Except (ModelError α) _) := by
  unfold intervalOf
  split
  · rename_i lower upper hparts
    have hlower := h.parts lower (by simp [hparts])
    have hupper := h.parts upper (by simp [hparts])
    refine (failsWithin_boundOf hlower).bind fun a => (failsWithin_boundOf hupper).bind fun b => ?_
    cases hof : Interval.of a b with
    | ok x => trivial
    | error e =>
      obtain ⟨l, u, rfl⟩ := Interval.of_eq_error hof
      exact failsWithin_failAt h _
  · exact failsWithin_failAt h _

theorem failsWithin_regionsOf (h : ∀ t ∈ ts, modelGrammar.Occurs (.start source) t)
    (regions : Collection α) : FailsWithin source (regionsOf source regions ts) := by
  induction ts generalizing regions with
  | nil => trivial
  | cons t ts ih =>
    rw [List.forall_mem_cons] at h
    unfold regionsOf
    split
    · rename_i name interval hparts
      split
      · have hinterval := h.1.parts interval (by simp [hparts])
        exact (failsWithin_intervalOf hinterval).bind fun _ => ih h.2 _
      · exact failsWithin_failAt (h.1.parts name (by simp [hparts])) _
    · exact failsWithin_failAt h.1 _

theorem failsWithin_weightOf (h : modelGrammar.Occurs (.start source) t) :
    FailsWithin source (weightOf source t : Except (ModelError α) α) := by
  unfold weightOf
  split
  · rename_i bound hparts
    exact failsWithin_boundOf (h.parts bound (by simp [hparts]))
  · exact failsWithin_failAt h _

theorem failsWithin_optionsOf (h : ∀ t ∈ ts, modelGrammar.Occurs (.start source) t)
    (c : ShapeConstraint α) : FailsWithin source (optionsOf source c ts) := by
  induction ts generalizing c with
  | nil => trivial
  | cons t ts ih =>
    rw [List.forall_mem_cons] at h
    unfold optionsOf
    split
    · exact (failsWithin_regionsOf h.1.parts ∅).bind fun _ => ih h.2 _
    · exact (failsWithin_weightOf h.1).bind fun _ => ih h.2 _
    · exact ih h.2 c

theorem failsWithin_ofToken (h : modelGrammar.Occurs (.start source) t) :
    FailsWithin source (ofToken source t : Except (ModelError α) _) := by
  unfold ofToken
  split
  · rename_i subject interval rest hparts
    have hsubject := h.parts subject (by simp [hparts])
    have hinterval := h.parts interval (by simp [hparts])
    have hrest : ∀ u ∈ rest, modelGrammar.Occurs (.start source) u :=
      fun u hu => h.parts u (by simp [hparts, hu])
    refine (failsWithin_targetOf hsubject).bind fun _ =>
      (failsWithin_intervalOf hinterval).bind fun _ => ?_
    exact failsWithin_optionsOf hrest _
  · exact failsWithin_failAt h _

/-- Reading one constraint fails at a stretch of it. -/
theorem failsWithin_readLine (line : List Char) :
    FailsWithin line (readLine line : Except (ModelError α) _) :=
  (isWithin_parseRule .constraintLine line).bind fun _ ht => failsWithin_ofToken ht

/-! ### The lines of a block -/

theorem splitAt_ne_nil (c : Char) (cs : List Char) : splitAt c cs ≠ [] := by
  cases cs with
  | nil => simp [splitAt]
  | cons d ds =>
    unfold splitAt
    split
    · simp
    · split <;> simp

theorem intercalate_splitAt (c : Char) (cs : List Char) : [c].intercalate (splitAt c cs) = cs := by
  induction cs with
  | nil => rfl
  | cons d ds ih =>
    unfold splitAt
    split
    · rename_i hd
      rw [List.intercalate_cons_of_ne_nil (splitAt_ne_nil c ds), ih, hd]
      rfl
    · cases hparts : splitAt c ds with
      | nil => exact absurd hparts (splitAt_ne_nil c ds)
      | cons part parts =>
        rw [hparts] at ih
        cases parts with
        | nil =>
          rw [List.intercalate_singleton] at ih ⊢
          rw [ih]
        | cons part' parts =>
          rw [List.intercalate_cons_cons] at ih ⊢
          rw [← ih]
          simp

theorem not_mem_of_mem_splitAt {c : Char} {cs line : List Char} (h : line ∈ splitAt c cs) :
    c ∉ line := by
  induction cs generalizing line with
  | nil =>
    rw [splitAt, List.mem_singleton] at h
    simp [h]
  | cons d ds ih =>
    unfold splitAt at h
    split at h
    · rcases List.mem_cons.1 h with rfl | h
      · simp
      · exact ih h
    · rename_i hd
      split at h
      · rw [List.mem_singleton] at h
        simp [h, Ne.symm hd]
      · rename_i part parts hparts
        rcases List.mem_cons.1 h with rfl | h
        · have hpart : c ∉ part := ih (by simp [hparts])
          simp [hpart, Ne.symm hd]
        · exact ih (by simp [hparts, h])

section
variable {cs : List Char}

theorem head?_trimBlanks (cs : List Char) :
    ∀ c ∈ (trimBlanks cs).head?, isWhiteSpace c = false := by
  intro c hc
  have hhead := List.head?_dropWhile_not isWhiteSpace cs
  rw [dropWhile_isWhiteSpace_eq, List.head?_append, Option.mem_def.1 hc] at hhead
  exact hhead

theorem exists_eq_append_trimBlanks (h : trimBlanks cs ≠ []) (rest : List Char) :
    ∃ tail, cs ++ rest = (cs ++ rest).takeWhile isWhiteSpace ++ (trimBlanks cs ++ tail) := by
  have hindent : (cs ++ rest).takeWhile isWhiteSpace = cs.takeWhile isWhiteSpace := by
    rw [List.takeWhile_append, if_neg]
    intro hall
    have hdrop : cs.dropWhile isWhiteSpace = [] := by
      rw [List.dropWhile_eq_nil_iff, ← List.takeWhile_eq_self_iff]
      exact (List.takeWhile_prefix _).eq_of_length hall
    rw [trimBlanks, hdrop] at h
    exact h rfl
  refine ⟨((cs.dropWhile isWhiteSpace).reverse.takeWhile isWhiteSpace).reverse ++ rest, ?_⟩
  rw [hindent, ← List.append_assoc (trimBlanks cs), ← dropWhile_isWhiteSpace_eq,
    ← List.append_assoc, List.takeWhile_append_dropWhile]

end

/-- An error of a block names a stretch of the block and the line that this begins in, with the
column counted from the first character that is not white space. -/
def IsPlaced (source : List Char) (e : ModelError α) : Prop :=
  ∃ cause before inside after, source = before ++ inside ++ after ∧
    e = .parse cause ⟨byteLength before, byteLength (before ++ inside), 1 + before.count '\n',
      1 + ((lastLine before).dropWhile isWhiteSpace).length⟩

omit [Scalar α] [Numeral α] in
theorem isPlaced_relocate {before line rest : List Char} (hbefore : lastLine before = [])
    (hline : '\n' ∉ line)
    (hcode : codeOf line ≠ []) {e : ModelError α} (he : e.IsWithin (codeOf line)) :
    IsPlaced (before ++ line ++ rest)
      (relocate (byteLength before + byteLength (line.takeWhile isWhiteSpace))
        (1 + before.count '\n') e) := by
  have hsplit : line = line.takeWhile (· != '#') ++ line.dropWhile (· != '#') :=
    List.takeWhile_append_dropWhile.symm
  obtain ⟨tail, htail⟩ := exists_eq_append_trimBlanks hcode (line.dropWhile (· != '#'))
  rw [← hsplit, ← codeOf] at htail
  obtain ⟨cause, first, inside, after, hinside, rfl⟩ := he
  generalize hindent : line.takeWhile isWhiteSpace = indent at htail ⊢
  have hblank : ∀ c ∈ indent, isWhiteSpace c = true := by
    rw [← hindent]
    exact fun c hc => List.mem_takeWhile_imp hc
  -- the error lies in a single line, so what comes before it in the line counts for no line
  have hnewline : '\n' ∉ indent ++ first := by
    intro hmem
    refine hline ?_
    rw [htail, hinside]
    simp only [List.mem_append] at hmem ⊢
    exact hmem.imp_right fun h => .inl (.inl (.inl h))
  -- the code of a line begins with no white space: the column is counted from there
  have hfirst : first.dropWhile isWhiteSpace = first := by
    cases first with
    | nil => rfl
    | cons c first =>
      have hc : isWhiteSpace c = false := head?_trimBlanks _ c (by rw [← codeOf, hinside]; rfl)
      exact List.dropWhile_cons_of_neg (by simp [hc])
  have hlast : lastLine (before ++ indent ++ first) = indent ++ first := by
    rw [List.append_assoc, lastLine_append_of_not_mem hnewline, hbefore, List.nil_append]
  have hcount : (before ++ indent ++ first).count '\n' = before.count '\n' := by
    rw [List.append_assoc, List.count_append, List.count_eq_zero_of_not_mem hnewline, Nat.add_zero]
  refine ⟨cause, before ++ indent ++ first, inside, after ++ tail ++ rest, ?_, ?_⟩
  · rw [htail, hinside]
    simp only [List.append_assoc]
  · have hcolumn : lastLine first = first :=
      lastLine_of_not_mem fun hmem => hnewline (List.mem_append_right _ hmem)
    rw [hlast, hcount, List.dropWhile_append_of_pos hblank, hfirst, Span.between, hinside,
      List.append_assoc first, lineColumn_byteLength, hcolumn]
    simp only [relocate, byteLength_append, Nat.add_assoc]

/-- The lines of a block are read with the bytes and the lines before them in mind. -/
theorem readLines_isPlaced {before : List Char} {lines : List (List Char)}
    (hbefore : lastLine before = [])
    (hlines : ∀ line ∈ lines, '\n' ∉ line) :
    Ends (IsPlaced (before ++ ['\n'].intercalate lines)) (fun _ => True)
      (readLines (byteLength before) (1 + before.count '\n') lines : Except (ModelError α) _) := by
  induction lines generalizing before with
  | nil => trivial
  | cons line lines ih =>
    rw [List.forall_mem_cons] at hlines
    obtain ⟨rest, hrest⟩ : ∃ rest,
        before ++ ['\n'].intercalate (line :: lines) = before ++ line ++ rest := by
      cases lines with
      | nil => exact ⟨[], by simp⟩
      | cons line' lines =>
        exact ⟨_, by rw [List.intercalate_cons_cons, List.append_assoc, List.append_assoc]⟩
    -- the next line is one line and a line end further
    have hnext : Ends (IsPlaced (before ++ ['\n'].intercalate (line :: lines))) (fun _ => True)
        (readLines (byteLength before + byteLength line + 1) (1 + before.count '\n' + 1) lines :
          Except (ModelError α) _) := by
      cases lines with
      | nil => trivial
      | cons line' lines =>
        have h := ih (lastLine_append_newline (before ++ line)) hlines.2
        have hcount : (before ++ line ++ ['\n']).count '\n' = before.count '\n' + 1 := by
          rw [List.count_append, List.count_append,
            List.count_eq_zero_of_not_mem hlines.1, Nat.add_zero, List.count_singleton_self]
        rw [hcount, byteLength_append, byteLength_append] at h
        rw [List.intercalate_cons_cons, ← List.append_assoc, ← List.append_assoc]
        exact h
    unfold readLines
    dsimp only
    rw [← codeOf]
    split_ifs with hempty
    · exact hnext
    · have hcode : codeOf line ≠ [] := fun hnil => hempty (by rw [hnil]; rfl)
      have hread := failsWithin_readLine (α := α) (codeOf line)
      cases hline : readLine (α := α) (codeOf line) with
      | error e =>
        rw [hline] at hread
        rw [hrest]
        exact isPlaced_relocate hbefore hlines.1 hcode hread
      | ok c => exact hnext.bind fun _ _ => trivial

omit [Scalar α] [Numeral α] in
theorem not_parse_of_checkSource {limits : Limits} {source : String} {cause : SyntaxError α}
    {span : Span} : limits.checkSource source ≠ .error (.parse cause span) := by
  intro h
  unfold Limits.checkSource Limits.check at h
  split at h <;> cases h

/-- The error of a block names a stretch of the source and the line that it begins in. The column is
that in the source exactly if no white space begins this line. -/
theorem span_of_readBlock {limits : Limits} {source : String} {cause : SyntaxError α} {span : Span}
    (h : readBlock limits source = .error (.parse cause span)) :
    ∃ before inside after : String, source = before ++ inside ++ after ∧
      span.start = before.utf8ByteSize ∧ span.stop = (before ++ inside).utf8ByteSize ∧
      span.line = 1 + before.toList.count '\n' ∧
      (span.column = 1 + (lastLine before.toList).length ↔
        ∀ c ∈ (lastLine before.toList).head?, isWhiteSpace c = false) := by
  have hplaced : IsPlaced source.toList (.parse cause span : ModelError α) := by
    have hlines : Ends (IsPlaced source.toList) (fun _ => True)
        (readLines 0 1 (splitAt '\n' source.toList) : Except (ModelError α) _) := by
      have hlast : lastLine [] = [] := rfl
      have h :=
        readLines_isPlaced (α := α) hlast fun line (hline : line ∈ splitAt '\n' source.toList) =>
        not_mem_of_mem_splitAt hline
      rwa [List.nil_append, intercalate_splitAt] at h
    unfold readBlock at h
    cases hcheck : limits.checkSource (α := α) source with
    | error e =>
      rw [hcheck] at h
      cases h
      exact absurd hcheck not_parse_of_checkSource
    | ok _ =>
      rw [hcheck] at h
      exact hlines.of_error h
  obtain ⟨cause', before, inside, after, hsource, heq⟩ := hplaced
  cases heq
  refine ⟨.ofList before, .ofList inside, .ofList after, ?_, ?_, ?_, ?_, ?_⟩
  · rw [← String.ofList_append, ← String.ofList_append, ← hsource, String.ofList_toList]
  · rw [utf8ByteSize_ofList]
  · rw [← String.ofList_append, utf8ByteSize_ofList]
  · rw [String.toList_ofList]
  · rw [String.toList_ofList]
    cases lastLine before with
    | nil => simp
    | cons c cs =>
      -- white space before the error is not counted, so the column falls short
      have hshort := (List.dropWhile_suffix isWhiteSpace (l := cs)).length_le
      cases hc : isWhiteSpace c with
      | true =>
        rw [List.dropWhile_cons_of_pos hc]
        simp [hc]
        omega
      | false => simp [hc]

/-! ### Two errors -/

theorem span_of_readBlock_secondLine : ∃ (cause : SyntaxError Float) (before inside after : String),
    readBlock {} "# ∂f\n∂f/∂x in [2 .. 1]\n" = .error (.parse cause ⟨20, 28, 2, 10⟩) ∧
      "# ∂f\n∂f/∂x in [2 .. 1]\n" = before ++ inside ++ after ∧ 20 = before.utf8ByteSize ∧
      28 = (before ++ inside).utf8ByteSize ∧ 2 = 1 + before.toList.count '\n' ∧
      (10 = 1 + (lastLine before.toList).length ↔ ∀ c ∈ (lastLine before.toList).head?,
        isWhiteSpace c = false) := by
  obtain ⟨cause, hread⟩ : ∃ cause : SyntaxError Float,
      readBlock {} "# ∂f\n∂f/∂x in [2 .. 1]\n" = .error (.parse cause ⟨20, 28, 2, 10⟩) :=
    exists_error_of_span? (by decide +kernel)
  obtain ⟨before, inside, after, h⟩ := span_of_readBlock hread
  exact ⟨cause, before, inside, after, hread, h⟩

/-- The interval is in the eighth column, and reported in the sixth. -/
theorem column_of_readBlock_indented : ∃ (cause : SyntaxError Float) (span : Span),
    readBlock {} "  f in [2 .. 1]" = .error (.parse cause span) ∧
      ∀ before after : String,
        "  f in [2 .. 1]" = before ++ after → span.start = before.utf8ByteSize →
        span.column ≠ 1 + (lastLine before.toList).length := by
  obtain ⟨cause, hread⟩ : ∃ cause : SyntaxError Float,
      readBlock {} "  f in [2 .. 1]" = .error (.parse cause ⟨7, 15, 1, 6⟩) :=
    exists_error_of_span? (by decide +kernel)
  refine ⟨cause, ⟨7, 15, 1, 6⟩, hread, fun before after hsource hstart hcolumn => ?_⟩
  have hplace := lineColumn_byteLength before.toList after.toList
  rw [← String.toList_append, ← hsource, ← utf8ByteSize_ofList, String.ofList_toList, ← hstart,
    ← hcolumn] at hplace
  have hcorrect : (lineColumn 7 "  f in [2 .. 1]".toList).2 = 8 := by decide
  rw [hplace] at hcorrect
  cases hcorrect

end ShapeConstraint

end ModalBounds
