import ModalBounds.Json.Read
import ModalBounds.Proofs.Syntax.Lexical

/-!
# JSON texts are read back

The text of a value is read as its `echo`: the value itself, but that a number comes back as its
literal is read (`read?_compact`). Strings return through their escapes (`stringRest?_escapes`) and
integers through their digits (`number?_intText`); a decimal keeps what its digits say, while they
may be split otherwise into digits and a power of ten.
-/

namespace ModalBounds.Json

/-! ### String literals -/

theorem codeUnit?_hexDigit {n : ℕ} (h : n < 32) :
    codeUnit? '0' '0' (hexDigit (n / 16)) (hexDigit (n % 16)) = some n := by
  revert n
  decide

section
-- The equations of the reader are made here once: each of the proofs below waits for them.
attribute [local simp] stringRest?

section
variable {a b c d : Char}

theorem stringRest?_of_no_unit (h : codeUnit? a b c d = none) (rest : List Char) :
    stringRest? ('\\' :: 'u' :: a :: b :: c :: d :: rest) = none := by
  by_cases hnext : ∃ a' b' c' d' rest', rest = '\\' :: 'u' :: a' :: b' :: c' :: d' :: rest'
  · obtain ⟨a', b', c', d', rest', rfl⟩ := hnext
    rw [stringRest?, h]
    rfl
  · rw [stringRest?, h]
    · rfl
    · intro a' b' c' d' rest' heq
      exact hnext ⟨a', b', c', d', rest', heq⟩

/-- An escape of a code unit that is no half of a pair stands for itself, whatever follows. -/
theorem stringRest?_unit {n : ℕ} (h : codeUnit? a b c d = some n) (hn : n < 32) (rest : List Char) :
    stringRest? ('\\' :: 'u' :: a :: b :: c :: d :: rest) = (stringRest? rest).map fun p =>
    (Char.ofNat n :: p.1, p.2) := by
  have hhigh : isHighHalf n = false := by simp [isHighHalf]; omega
  have hlow : isLowHalf n = false := by simp [isLowHalf]; omega
  by_cases hnext : ∃ a' b' c' d' rest', rest = '\\' :: 'u' :: a' :: b' :: c' :: d' :: rest'
  · obtain ⟨a', b', c', d', rest', rfl⟩ := hnext
    rw [stringRest?, h]
    cases hunit : codeUnit? a' b' c' d' with
    | none =>
      rw [stringRest?_of_no_unit hunit]
      rfl
    | some unit =>
      simp only [Option.bind_eq_bind, Option.bind_some, hhigh, hlow, Bool.false_and, Bool.or_self,
        Bool.false_eq_true, if_false]
      cases stringRest? ('\\' :: 'u' :: a' :: b' :: c' :: d' :: rest') <;> rfl
  · rw [stringRest?, h]
    · simp only [Option.bind_eq_bind, Option.bind_some, hhigh, hlow, Bool.or_self,
        Bool.false_eq_true, if_false]
      cases stringRest? rest <;> rfl
    · intro a' b' c' d' rest' heq
      exact hnext ⟨a', b', c', d', rest', heq⟩

theorem stringRest?_escaped (hc : c ≠ 'u') (h : escaped? c = some d) (rest : List Char) :
    stringRest? ('\\' :: c :: rest) = (stringRest? rest).map fun p => (d :: p.1, p.2) := by
  rw [stringRest?, h]
  · cases stringRest? rest <;> rfl
  · intros
    contradiction
  · intros
    contradiction

theorem stringRest?_plain (hquote : c ≠ '"') (hslash : c ≠ '\\') (h : 32 ≤ c.toNat)
    (rest : List Char) :
    stringRest? (c :: rest) = (stringRest? rest).map fun p => (c :: p.1, p.2) := by
  rw [stringRest?, if_neg]
  · cases stringRest? rest <;> rfl
  · simp [hslash]
    omega
  all_goals intros; contradiction

end

theorem stringRest?_escapeChar (c : Char) (rest : List Char) :
    stringRest? (escapeChar c ++ rest) = (stringRest? rest).map fun p => (c :: p.1, p.2) := by
  have hofNat {n : ℕ} (h : c.toNat = n) : Char.ofNat n = c := by rw [← h, Char.ofNat_toNat]
  unfold escapeChar
  split_ifs with hquote hslash hn hr ht hb hf hcontrol
  · exact stringRest?_escaped (by decide) (by rw [hquote]; rfl) rest
  · exact stringRest?_escaped (by decide) (by rw [hslash]; rfl) rest
  · exact stringRest?_escaped (by decide) (by rw [hn]; rfl) rest
  · exact stringRest?_escaped (by decide) (by rw [hr]; rfl) rest
  · exact stringRest?_escaped (by decide) (by rw [ht]; rfl) rest
  · exact stringRest?_escaped (by decide) (by rw [← hofNat hb]; rfl) rest
  · exact stringRest?_escaped (by decide) (by rw [← hofNat hf]; rfl) rest
  · have hunit := stringRest?_unit (codeUnit?_hexDigit hcontrol) hcontrol rest
    rwa [hofNat rfl] at hunit
  · exact stringRest?_plain hquote hslash (by omega) rest

/-- A string is read from its literal. -/
theorem stringRest?_escapes (s rest : List Char) :
    stringRest? (s.flatMap escapeChar ++ '"' :: rest) = some (s, rest) := by
  induction s with
  | nil => simp
  | cons c s ih =>
    rw [List.flatMap_cons, List.append_assoc, stringRest?_escapeChar, ih, Option.map_some]

end

theorem toList_stringText (s : String) :
    (stringText s).toList = '"' :: (s.toList.flatMap escapeChar ++ ['"']) := by
  rw [stringText, String.toList_ofList]

/-! ### Number literals -/

theorem isNumberChar_of_isDigit {c : Char} (h : c.isDigit = true) : isNumberChar c = true := by
  simp [isNumberChar, h]

def IsNumberText (cs : List Char) : Prop := cs ≠ [] ∧ ∀ c ∈ cs, isNumberChar c = true

theorem isNumberText_writePositional {ds : List Char} (hds : IsDigits ds)
    (f : NumberFormat) (point : ℤ) : IsNumberText (f.writePositional ds point) := by
  have hdigit {c : Char} (hc : c ∈ ds) : isNumberChar c = true :=
    isNumberChar_of_isDigit (hds.2 c hc)
  have hzeros {n : ℕ} {c : Char} (hc : c ∈ List.replicate n '0') : isNumberChar c = true := by
    rw [(List.mem_replicate.1 hc).2]
    rfl
  unfold NumberFormat.writePositional
  simp only
  split
  · refine ⟨by simp [hds.1], fun c hc => ?_⟩
    rcases List.mem_append.1 hc with hc | hc
    · exact (List.mem_append.1 hc).elim hdigit hzeros
    · split at hc
      · fin_cases hc <;> rfl
      · cases hc
  · split
    · refine ⟨by simp, fun c hc => ?_⟩
      rcases List.mem_append.1 hc with hc | hc
      · exact hdigit (List.mem_of_mem_take hc)
      · rcases List.mem_cons.1 hc with rfl | hc
        · rfl
        · exact hdigit (List.mem_of_mem_drop hc)
    · refine ⟨by simp, fun c hc => ?_⟩
      rcases List.mem_cons.1 hc with rfl | hc
      · rfl
      · rcases List.mem_cons.1 hc with rfl | hc
        · rfl
        · exact (List.mem_append.1 hc).elim hzeros hdigit

theorem isNumberText_writeScientific {ds : List Char} (hds : IsDigits ds) (exponent : ℤ) :
    IsNumberText (NumberFormat.writeScientific ds exponent) := by
  have hdigit {c : Char} (hc : c ∈ ds) : isNumberChar c = true :=
    isNumberChar_of_isDigit (hds.2 c hc)
  have hexponent {c : Char} (hc : c ∈ (toString exponent.natAbs).toList) : isNumberChar c = true :=
    isNumberChar_of_isDigit ((isDigits_toString _).2 c hc)
  unfold NumberFormat.writeScientific
  extract_lets mantissa sign
  have hmantissa : ∀ c ∈ mantissa, isNumberChar c = true := by
    intro c hc
    unfold mantissa at hc
    split at hc
    · cases hc
    · exact hdigit hc
    · rcases List.mem_cons.1 hc with rfl | hc
      · exact hdigit List.mem_cons_self
      · rcases List.mem_cons.1 hc with rfl | hc
        · rfl
        · exact hdigit (List.mem_cons_of_mem _ hc)
  have hsign : isNumberChar sign = true := by
    unfold sign
    split <;> rfl
  refine ⟨by simp, fun c hc => ?_⟩
  rcases List.mem_append.1 hc with hc | hc
  · exact hmantissa c hc
  · rcases List.mem_cons.1 hc with rfl | hc
    · rfl
    · rcases List.mem_cons.1 hc with rfl | hc
      · exact hsign
      · exact hexponent hc

theorem isNumberText_decimalText (d : Decimal) : IsNumberText (decimalText d).toList := by
  have hdigits := isDigits_toString d.digits
  unfold decimalText NumberFormat.write
  extract_lets digits point isPositional text
  have htext : IsNumberText text := by
    unfold text
    split
    · exact isNumberText_writePositional hdigits _ _
    · exact isNumberText_writeScientific hdigits _
  rw [String.toList_ofList]
  split
  · exact ⟨by simp, List.forall_mem_cons.2 ⟨rfl, htext.2⟩⟩
  · exact htext

/-! ### Integers -/

theorem takeDigits_of_isDigit {ds : List Char} (h : ∀ c ∈ ds, c.isDigit = true) (n count : ℕ) :
    Decimal.takeDigits n count ds = (Nat.ofDigitChars 10 ds n, count + ds.length, []) := by
  induction ds generalizing n count with
  | nil => rfl
  | cons c ds ih =>
    rw [List.forall_mem_cons] at h
    rw [Decimal.takeDigits, if_pos h.1, ih h.2, Nat.ofDigitChars_cons, Nat.mul_comm n,
      List.length_cons]
    simp only [Nat.add_assoc, Nat.add_comm 1]

theorem toList_toString (n : ℕ) : (toString n).toList = Nat.toDigits 10 n := by
  rw [Nat.toString_eq_repr, Nat.toList_repr]

theorem decimalRead?_toString (n : ℕ) : Decimal.read? (toString n).toList = some ⟨false, n, 0⟩ := by
  have hvalue : Nat.ofDigitChars 10 (toString n).toList 0 = n := by
    rw [toList_toString, Nat.ofDigitChars_ten_toDigits]
  rw [Decimal.read?, takeDigits_of_isDigit (isDigits_toString n).2, hvalue]
  simp [Decimal.readExponent?]

theorem head?_toDigits {n : ℕ} (h : 0 < n) : (Nat.toDigits 10 n).head? ≠ some '0' := by
  induction n using Nat.strong_induction_on with
  | _ n ih =>
    rw [Nat.toDigits_eq_if (by decide)]
    split
    · simp
      omega
    · rw [List.head?_append_of_ne_nil _ Nat.toDigits_ne_nil]
      exact ih (n / 10) (by omega) (by omega)

theorem isNumberLiteral_toString (n : ℕ) : isNumberLiteral (toString n).toList = true := by
  have hdigits := isDigits_toString n
  have hwhole : (toString n).toList.takeWhile Char.isDigit = (toString n).toList :=
    List.takeWhile_eq_self_iff.2 hdigits.2
  have hrest : (toString n).toList.dropWhile Char.isDigit = [] :=
    List.dropWhile_eq_nil_iff.2 hdigits.2
  unfold isNumberLiteral
  rw [hwhole, hrest, toList_toString]
  rcases Nat.eq_zero_or_pos n with rfl | hn
  · rfl
  · have hhead := head?_toDigits hn
    have hne : Nat.toDigits 10 n ≠ [] := Nat.toDigits_ne_nil
    generalize Nat.toDigits 10 n = ds at hhead hne
    dsimp only
    split
    · contradiction
    · contradiction
    · rfl

theorem number?_toString (n : ℕ) : number? (toString n).toList = some (integer n) := by
  have hdigits := isDigits_toString n
  have hall : (toString n).toList.all Char.isDigit = true := List.all_eq_true.2 hdigits.2
  unfold number?
  split
  rename_i negative unsigned hsign
  split at hsign
  · rename_i rest hrest
    have hminus := hdigits.2 '-' (by rw [hrest]; exact List.mem_cons_self)
    cases hminus
  · cases hsign
    rw [isNumberLiteral_toString, decimalRead?_toString, hall]
    rfl

theorem number?_neg_toString {n : ℕ} (h : 0 < n) :
    number? ('-' :: (toString n).toList) = some (integer (-n)) := by
  have hall : (toString n).toList.all Char.isDigit = true :=
    List.all_eq_true.2 (isDigits_toString n).2
  unfold number?
  split
  rename_i negative unsigned hsign
  cases hsign
  rw [isNumberLiteral_toString, decimalRead?_toString, hall]
  simp [h.ne']

theorem intText_cases (n : ℤ) : (∃ m : ℕ, n = m ∧ (toString n).toList = (toString m).toList) ∨
    ∃ m : ℕ, 0 < m ∧ n = -m ∧ (toString n).toList = '-' :: (toString m).toList := by
  cases n with
  | ofNat m => exact .inl ⟨m, rfl, rfl⟩
  | negSucc m => exact .inr ⟨m + 1, m.succ_pos, rfl, String.toList_append ..⟩

theorem number?_intText (n : ℤ) : number? (toString n).toList = some (integer n) := by
  rcases intText_cases n with ⟨m, rfl, h⟩ | ⟨m, hm, rfl, h⟩
  · rw [h, number?_toString]
  · rw [h, number?_neg_toString hm]

theorem isNumberText_intText (n : ℤ) : IsNumberText (toString n).toList := by
  have hnat (m : ℕ) : IsNumberText (toString m).toList :=
    ⟨(isDigits_toString m).1, fun c hc => isNumberChar_of_isDigit ((isDigits_toString m).2 c hc)⟩
  rcases intText_cases n with ⟨m, -, h⟩ | ⟨m, -, -, h⟩
  · rw [h]
    exact hnat m
  · rw [h]
    exact ⟨by simp, List.forall_mem_cons.2 ⟨rfl, (hnat m).2⟩⟩

/-! ### Values -/

mutual

/-- What the text of a value is read as: the value, but for the notation of its numbers. -/
def echo : Json → Option Json
  | decimal d => number? (decimalText d).toList
  | array items => (echoItems items).map array
  | object fields => (echoFields fields).map object
  | value => some value

def echoItems : List Json → Option (List Json)
  | [] => some []
  | a :: rest => do return (← echo a) :: (← echoItems rest)

def echoFields : List (String × Json) → Option (List (String × Json))
  | [] => some []
  | (name, a) :: rest => do return (name, ← echo a) :: (← echoFields rest)

end

/-- No text of a number goes on here. -/
def EndsNumber (rest : List Char) : Prop := ∀ c ∈ rest.head?, isNumberChar c = false

theorem isSpace_of_isNumberChar {c : Char} (h : isNumberChar c = true) : isSpace c = false := by
  cases hspace : isSpace c with
  | false => rfl
  | true =>
    simp only [isSpace, Bool.or_eq_true, beq_iff_eq] at hspace
    rcases hspace with ((rfl | rfl) | rfl) | rfl <;> cases h

theorem value?_number {cs rest : List Char} {fuel : ℕ} (hcs : IsNumberText cs)
    (hrest : EndsNumber rest) :
    value? (fuel + 1) (cs ++ rest) = (number? cs).map fun j => (j, rest) := by
  obtain ⟨c, ds, rfl⟩ := List.exists_cons_of_ne_nil hcs.1
  have hc : isNumberChar c = true := hcs.2 c List.mem_cons_self
  have hskip : skipSpace (c :: ds ++ rest) = c :: (ds ++ rest) :=
    List.dropWhile_cons_of_neg (by simp [isSpace_of_isNumberChar hc])
  have htake : (c :: ds ++ rest).takeWhile isNumberChar = c :: ds := by
    rw [List.takeWhile_append_of_pos hcs.2]
    cases rest with
    | nil => simp
    | cons d rest => rw [List.takeWhile_cons_of_neg (by simp [hrest d rfl]), List.append_nil]
  have hdrop : (c :: ds ++ rest).dropWhile isNumberChar = rest := by
    rw [List.dropWhile_append_of_pos hcs.2]
    cases rest with
    | nil => rfl
    | cons d rest => exact List.dropWhile_cons_of_neg (by simp [hrest d rfl])
  rw [value?, hskip]
  split
  -- a number begins like no other value
  iterate 6 rename_i heq; cases heq; cases hc
  rw [← List.cons_append, htake, hdrop]
  cases number? (c :: ds) <;> rfl

/-- The first character of a value's text is no blank and closes nothing. -/
def Opens (cs : List Char) : Prop := ∃ c ds, cs = c :: ds ∧ isSpace c = false ∧ c ≠ ']'

theorem IsNumberText.opens {cs : List Char} (h : IsNumberText cs) : Opens cs := by
  obtain ⟨c, ds, rfl⟩ := List.exists_cons_of_ne_nil h.1
  have hc := h.2 c List.mem_cons_self
  refine ⟨c, ds, rfl, isSpace_of_isNumberChar hc, ?_⟩
  rintro rfl
  cases hc

theorem opens_compact (a : Json) : Opens a.compact.toList := by
  cases a with
  | null => exact ⟨'n', _, rfl, rfl, by decide⟩
  | bool b => cases b <;> exact ⟨_, _, rfl, rfl, by decide⟩
  | integer n => exact (isNumberText_intText n).opens
  | decimal d => exact (isNumberText_decimalText d).opens
  | string s => exact ⟨'"', _, toList_stringText s, rfl, by decide⟩
  | array items =>
    exact ⟨'[', _, by rw [compact, String.toList_append, String.toList_append]; rfl, rfl, by decide⟩
  | object fields =>
    exact ⟨'\x7b', _,
      by rw [compact, String.toList_append, String.toList_append]; rfl, rfl, by decide⟩

def itemsChars (items : List Json) : List Char := (",".intercalate (compactItems items)).toList

def fieldsChars (fields : List (String × Json)) :
    List Char := (",".intercalate (compactFields fields)).toList

theorem itemsChars_singleton (a : Json) : itemsChars [a] = a.compact.toList := rfl

theorem itemsChars_cons_cons (a b : Json) (items : List Json) :
    itemsChars (a :: b :: items) = a.compact.toList ++ ',' :: itemsChars (b :: items) := by
  simp only [itemsChars, compactItems, String.toList_intercalate, List.map_cons,
    List.intercalate_cons_cons]
  simp

theorem fieldsChars_singleton (name : String) (a : Json) :
    fieldsChars [(name, a)] = (stringText name).toList ++ ':' :: a.compact.toList := by
  show (stringText name ++ ":" ++ a.compact).toList = _
  simp [String.toList_append]

theorem fieldsChars_cons_cons (name : String) (a : Json) (p : String × Json)
    (fields : List (String × Json)) :
    fieldsChars ((name, a) :: p :: fields) =
      (stringText name).toList ++ ':' ::
        (a.compact.toList ++ ',' :: fieldsChars (p :: fields)) := by
  simp only [fieldsChars, compactFields, String.toList_intercalate, List.map_cons,
    List.intercalate_cons_cons]
  simp [String.toList_append]

theorem toList_compact_array (items : List Json) :
    (array items).compact.toList = '[' :: (itemsChars items ++ [']']) := by
  rw [compact, String.toList_append, String.toList_append]
  rfl

theorem toList_compact_object (fields : List (String × Json)) :
    (object fields).compact.toList = '\x7b' :: (fieldsChars fields ++ ['\x7d']) := by
  rw [compact, String.toList_append, String.toList_append]
  rfl

/-- The text of a value is read as its echo, whatever follows. -/
def ReadsBack (a : Json) : Prop := ∀ ⦃b : Json⦄ ⦃fuel : ℕ⦄ ⦃rest : List Char⦄, a.echo = some b →
  2 * a.compact.toList.length ≤ fuel → EndsNumber rest →
  value? fuel (a.compact.toList ++ rest) = some (b, rest)

theorem items?_itemsChars {items bs : List Json} {fuel : ℕ} {rest : List Char}
    (h : ∀ a ∈ items, ReadsBack a) (hne : items ≠ []) (hitems : echoItems items = some bs)
    (hfuel : 2 * (itemsChars items).length < fuel) :
    items? fuel (itemsChars items ++ ']' :: rest) = some (bs, rest) := by
  induction items generalizing bs fuel with
  | nil => contradiction
  | cons a items ih =>
    rw [List.forall_mem_cons] at h
    obtain ⟨fuel, rfl⟩ : ∃ n, fuel = n + 1 := ⟨fuel - 1, by omega⟩
    simp only [echoItems, Option.bind_eq_bind, Option.bind_eq_some_iff, Option.pure_def,
      Option.some.injEq] at hitems
    obtain ⟨b, hb, bs, hbs, rfl⟩ := hitems
    cases items with
    | nil =>
      cases hbs
      rw [itemsChars_singleton] at hfuel ⊢
      rw [items?, h.1 hb (by omega) (by rintro _ ⟨⟩; rfl)]
      rfl
    | cons a' items =>
      rw [itemsChars_cons_cons] at hfuel ⊢
      simp only [List.length_append, List.length_cons] at hfuel
      rw [List.append_assoc, items?, h.1 hb (by omega) (by rintro _ ⟨⟩; rfl)]
      show (items? fuel (itemsChars (a' :: items) ++ ']' :: rest) >>= fun p =>
          pure (b :: p.1, p.2)) = _
      rw [ih h.2 (by simp) hbs (by omega)]
      rfl

section
variable {name : String} {fuel : ℕ} {text rest : List Char} {a : Json}

theorem skipSpace_stringText (name : String) (text : List Char) :
    skipSpace ((stringText name).toList ++ text) =
      '"' :: (name.toList.flatMap escapeChar ++ '"' :: text) := by
  rw [toList_stringText, List.cons_append, List.append_assoc]
  rfl

theorem fields?_last (h : value? fuel text = some (a, '\x7d' :: rest)) :
    fields? (fuel + 1) ((stringText name).toList ++ ':' :: text) = some ([(name, a)], rest) := by
  have hcolon : after? [':'] (skipSpace (':' :: text)) = some text := rfl
  rw [fields?, skipSpace_stringText]
  simp only [stringRest?_escapes, Option.bind_eq_bind, Option.bind_some, hcolon, h,
    String.ofList_toList]
  rfl

theorem fields?_next {fields : List (String × Json)} {after : List Char}
    (h : value? fuel text = some (a, ',' :: rest))
    (hrest : fields? fuel rest = some (fields, after)) :
    fields? (fuel + 1) ((stringText name).toList ++ ':' :: text) =
      some ((name, a) :: fields, after) := by
  have hcolon : after? [':'] (skipSpace (':' :: text)) = some text := rfl
  have hcomma : skipSpace (',' :: rest) = ',' :: rest := rfl
  rw [fields?, skipSpace_stringText]
  simp only [stringRest?_escapes, Option.bind_eq_bind, Option.bind_some, hcolon, h, hcomma, hrest,
    String.ofList_toList]
  rfl

end

theorem fields?_fieldsChars {fields bs : List (String × Json)} {fuel : ℕ} {rest : List Char}
    (h : ∀ p ∈ fields, ReadsBack p.2) (hne : fields ≠ []) (hfields : echoFields fields = some bs)
    (hfuel : 2 * (fieldsChars fields).length < fuel) :
    fields? fuel (fieldsChars fields ++ '\x7d' :: rest) = some (bs, rest) := by
  induction fields generalizing bs fuel with
  | nil => contradiction
  | cons p fields ih =>
    obtain ⟨name, a⟩ := p
    rw [List.forall_mem_cons] at h
    obtain ⟨fuel, rfl⟩ : ∃ n, fuel = n + 1 := ⟨fuel - 1, by omega⟩
    have ha : ReadsBack a := h.1
    simp only [echoFields, Option.bind_eq_bind, Option.bind_eq_some_iff, Option.pure_def,
      Option.some.injEq] at hfields
    obtain ⟨b, hb, bs, hbs, rfl⟩ := hfields
    cases fields with
    | nil =>
      cases hbs
      rw [fieldsChars_singleton] at hfuel ⊢
      simp only [List.length_append, List.length_cons] at hfuel
      rw [List.append_assoc, List.cons_append]
      exact fields?_last (ha hb (by omega) (by rintro _ ⟨⟩; rfl))
    | cons p' fields =>
      rw [fieldsChars_cons_cons] at hfuel ⊢
      simp only [List.length_append, List.length_cons] at hfuel
      rw [List.append_assoc, List.cons_append, List.append_assoc]
      exact fields?_next (ha hb (by omega) (by rintro _ ⟨⟩; rfl)) (ih h.2 (by simp) hbs (by omega))

theorem Opens.skipSpace {cs : List Char} (h : Opens cs) (rest : List Char) :
    skipSpace (cs ++ rest) = cs ++ rest := by
  obtain ⟨c, ds, rfl, hc, -⟩ := h
  exact List.dropWhile_cons_of_neg (by simp [hc])

theorem opens_itemsChars {items : List Json} (h : items ≠ []) : Opens (itemsChars items) := by
  match items, h with
  | [a], _ => exact opens_compact a
  | a :: a' :: items, _ =>
    obtain ⟨c, ds, hcs, hc⟩ := opens_compact a
    exact ⟨c, _, by rw [itemsChars_cons_cons, hcs]; rfl, hc⟩

theorem fieldsChars_eq_cons {fields : List (String × Json)} (h : fields ≠ []) :
    ∃ cs, fieldsChars fields = '"' :: cs := by
  match fields, h with
  | [(name, a)], _ => exact ⟨_, by rw [fieldsChars_singleton, toList_stringText]; rfl⟩
  | (name, a) :: p :: fields, _ => exact ⟨_, by rw [fieldsChars_cons_cons, toList_stringText]; rfl⟩

theorem value?_array (fuel : ℕ) (text : List Char) : value? (fuel + 1) ('[' :: text) =
    match skipSpace text with
    | ']' :: after => some (array [], after)
    | rest => do
      let (items, after) ← items? fuel rest
      return (array items, after) := rfl

theorem value?_object (fuel : ℕ) (text : List Char) : value? (fuel + 1) ('\x7b' :: text) =
    match skipSpace text with
    | '\x7d' :: after => some (object [], after)
    | rest => do
      let (fields, after) ← fields? fuel rest
      return (object fields, after) := rfl

theorem readsBack_array {items : List Json} (h : ∀ a ∈ items, ReadsBack a) :
    ReadsBack (array items) := by
  intro b fuel rest hecho hfuel hrest
  obtain ⟨bs, hbs, rfl⟩ := Option.map_eq_some_iff.1 hecho
  rw [toList_compact_array] at hfuel ⊢
  simp only [List.length_cons, List.length_append, List.length_nil] at hfuel
  obtain ⟨fuel, rfl⟩ : ∃ n, fuel = n + 1 := ⟨fuel - 1, by omega⟩
  rw [List.cons_append, List.append_assoc]
  rcases eq_or_ne items [] with rfl | hne
  · cases hbs
    rfl
  · have hopens := opens_itemsChars hne
    have hitems : items? fuel (itemsChars items ++ ']' :: rest) = some (bs, rest) :=
      items?_itemsChars h hne hbs (by omega)
    rw [List.singleton_append, value?_array, hopens.skipSpace]
    split
    · rename_i heq
      obtain ⟨c, ds, hcs, -, hc⟩ := hopens
      rw [hcs] at heq
      exact absurd (List.cons.inj heq).1 hc
    · rw [hitems]
      rfl

theorem readsBack_object {fields : List (String × Json)} (h : ∀ p ∈ fields, ReadsBack p.2) :
    ReadsBack (object fields) := by
  intro b fuel rest hecho hfuel hrest
  obtain ⟨bs, hbs, rfl⟩ := Option.map_eq_some_iff.1 hecho
  rw [toList_compact_object] at hfuel ⊢
  simp only [List.length_cons, List.length_append, List.length_nil] at hfuel
  obtain ⟨fuel, rfl⟩ : ∃ n, fuel = n + 1 := ⟨fuel - 1, by omega⟩
  rw [List.cons_append, List.append_assoc]
  rcases eq_or_ne fields [] with rfl | hne
  · cases hbs
    rfl
  · obtain ⟨cs, hcs⟩ := fieldsChars_eq_cons hne
    have hfields : fields? fuel (fieldsChars fields ++ '\x7d' :: rest) = some (bs, rest) :=
      fields?_fieldsChars h hne hbs (by omega)
    have hskip : skipSpace (fieldsChars fields ++ '\x7d' :: rest) =
        fieldsChars fields ++ '\x7d' :: rest := by
      rw [hcs]
      rfl
    rw [List.singleton_append, value?_object, hskip]
    split
    · rename_i heq
      rw [hcs] at heq
      cases heq
    · rw [hfields]
      rfl

theorem readsBack_number {a : Json} {cs : List Char} (hcs : IsNumberText cs)
    (hcompact : a.compact.toList = cs) (hecho : a.echo = number? cs) : ReadsBack a := by
  intro b fuel rest hb hfuel hrest
  rw [hcompact] at hfuel ⊢
  have hlength := List.length_pos_iff.2 hcs.1
  obtain ⟨fuel, rfl⟩ : ∃ n, fuel = n + 1 := ⟨fuel - 1, by omega⟩
  rw [value?_number hcs hrest, ← hecho, hb, Option.map_some]

theorem readsBack_string (s : String) : ReadsBack (string s) := by
  intro b fuel rest hecho hfuel hrest
  cases hecho
  have htext : (string s).compact.toList ++ rest =
      '"' :: (s.toList.flatMap escapeChar ++ '"' :: rest) := by
    show (stringText s).toList ++ rest = _
    rw [toList_stringText]
    simp
  have hskip : skipSpace ('"' :: (s.toList.flatMap escapeChar ++ '"' :: rest)) =
      '"' :: (s.toList.flatMap escapeChar ++ '"' :: rest) := rfl
  obtain ⟨fuel, rfl⟩ : ∃ n, fuel = n + 1 := by
    obtain ⟨c, ds, hcs, -⟩ := opens_compact (string s)
    rw [hcs, List.length_cons] at hfuel
    exact ⟨fuel - 1, by omega⟩
  rw [htext, value?, hskip]
  simp only [stringRest?_escapes, Option.bind_eq_bind, Option.bind_some, String.ofList_toList]
  rfl

theorem readsBack_word {a : Json} (c : Char) (cs : List Char)
    (hcompact : a.compact.toList = c :: cs) (hecho : a.echo = some a)
    (hword : ∀ fuel rest, value? (fuel + 1) (c :: cs ++ rest) = some (a, rest)) :
    ReadsBack a := by
  intro b fuel rest hb hfuel hrest
  rw [hecho] at hb
  cases hb
  rw [hcompact] at hfuel ⊢
  rw [List.length_cons] at hfuel
  obtain ⟨fuel, rfl⟩ : ∃ n, fuel = n + 1 := ⟨fuel - 1, by omega⟩
  exact hword fuel rest

theorem readsBack (a : Json) : ReadsBack a := by
  match a with
  | null => exact readsBack_word 'n' ['u', 'l', 'l'] rfl rfl fun _ _ => rfl
  | bool true => exact readsBack_word 't' ['r', 'u', 'e'] rfl rfl fun _ _ => rfl
  | bool false => exact readsBack_word 'f' ['a', 'l', 's', 'e'] rfl rfl fun _ _ => rfl
  | integer n => exact readsBack_number (isNumberText_intText n) rfl (number?_intText n).symm
  | decimal d => exact readsBack_number (isNumberText_decimalText d) rfl rfl
  | string s => exact readsBack_string s
  | array items => exact readsBack_array fun a ha => readsBack a
  | object fields => exact readsBack_object fun p hp => readsBack p.2
termination_by sizeOf a
decreasing_by
  · have := List.sizeOf_lt_of_mem ha
    simp
    omega
  · have := List.sizeOf_lt_of_mem hp
    obtain ⟨name, a⟩ := p
    simp at this ⊢
    omega

theorem read?_eq {text : String} {a : Option Json}
    (h : value? (2 * text.toList.length + 2) (text.toList ++ []) = a.map fun b => (b, [])) :
    read? text = a := by
  rw [List.append_nil] at h
  rw [read?, h]
  cases a <;> rfl

/-- A text that was written is read as the echo of the value. -/
theorem read?_compact {a b : Json} (h : a.echo = some b) : read? a.compact = some b :=
  read?_eq (readsBack a h (by omega) nofun)

theorem read?_decimal (d : Decimal) : read? (decimal d).compact = number? (decimalText d).toList :=
  read?_eq (value?_number (isNumberText_decimalText d) nofun)

end ModalBounds.Json
