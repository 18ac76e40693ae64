import ModalBounds.Proofs.Syntax.Lexical

/-!
# Numbers as they are written

The text of a finite number is a plain numeral, after a minus or without
(`isPlainNumeral_unsigned`); the texts of the others are the words `inf`, `-inf` and `NaN`. A number
that reads back from its text is what its numeral denotes, or the negative of that
(`numeral?_unsigned`).
-/

namespace ModalBounds

def unsigned : List Char → List Char
  | '-' :: cs => cs
  | cs => cs

def beginsSigned (cs : List Char) : Bool := cs.head? == some '-'

theorem unsigned_of_head {cs : List Char} (h : beginsSigned cs = false) : unsigned cs = cs := by
  unfold unsigned
  split
  · simp [beginsSigned] at h
  · rfl

theorem eq_unsigned (cs : List Char) :
    cs = if beginsSigned cs then '-' :: unsigned cs else unsigned cs := by
  by_cases h : beginsSigned cs = true
  · rw [if_pos h]
    cases cs with
    | nil => simp [beginsSigned] at h
    | cons c cs =>
      simp only [beginsSigned, List.head?_cons, beq_iff_eq, Option.some.injEq] at h
      rw [h]
      rfl
  · rw [if_neg h, unsigned_of_head (by simpa using h)]

theorem toLower_of_isDigit {c : Char} (h : c.isDigit = true) : c.toLower = c := by
  unfold Char.toLower
  rw [dif_neg]
  intro hupper
  have hle := (Char.isDigit_iff_toNat.1 h).2
  have hge := UInt32.le_iff_toNat_le.1 hupper.1
  simp only [Char.toNat] at hle
  simp at hle hge
  omega

section
variable {α : Type} [Scalar α] [Numeral α]

def HasDecimal (x : α) : Prop := (Numeral.toDecimal? NumberFormat.plain.tie x).isSome = true

theorem beginsSigned_of_isPlainNumeral {cs : List Char} (h : IsPlainNumeral cs) :
    beginsSigned cs = false := by
  obtain ⟨c, ds, rfl, hc⟩ := h.head
  simp only [beginsSigned, List.head?_cons, beq_eq_false_iff_ne, ne_eq, Option.some.injEq]
  rintro rfl
  cases hc

theorem isPlainNumeral_unsigned {x : α} (h : HasDecimal x) :
    IsPlainNumeral (unsigned (numberText x).toList) := by
  obtain ⟨d, hd⟩ := Option.isSome_iff_exists.1 h
  obtain ⟨cs, hcs, htext⟩ := toList_write_plain d
  rw [numberText, hd, htext]
  split
  · exact hcs
  · rwa [unsigned_of_head (beginsSigned_of_isPlainNumeral hcs)]

theorem unsigned_of_not_hasDecimal {x : α} (h : ¬ HasDecimal x) :
    unsigned (numberText x).toList = if Scalar.isNaN x then ['N', 'a', 'N']
    else ['i', 'n', 'f'] := by
  rw [HasDecimal, Option.not_isSome_iff_eq_none] at h
  rw [numberText, h]
  simp only
  split_ifs <;> rfl

omit [Numeral α] in
theorem specialNumber?_of_isDigit {c : Char} {cs : List Char} (h : c.isDigit = true) :
    specialNumber? (α := α) (c :: cs) = none := by
  have hhead {d : Char} {ds : List Char} (hd : d.isDigit = false) :
      String.ofList ((c :: cs).map Char.toLower) ≠ String.ofList (d :: ds) := by
    intro heq
    rw [String.ofList_inj, List.map_cons, toLower_of_isDigit h] at heq
    cases heq
    rw [h] at hd
    cases hd
  unfold specialNumber?
  split
  · rename_i heq
    exact absurd heq (hhead rfl)
  · rename_i heq
    exact absurd heq (hhead rfl)
  · rename_i heq
    exact absurd heq (hhead rfl)
  · rfl

theorem readNumber_of_isDigit {c : Char} {cs : List Char} {x : α} (h : c.isDigit = true)
    (hread : readNumber (c :: cs) = .ok x) : numeral? (c :: cs) = some x := by
  have hne : c ≠ '-' ∧ c ≠ '+' := by
    constructor <;> rintro rfl <;> cases h
  simp only [readNumber, hne, decide_false, Bool.or_self, Bool.false_eq_true, if_false,
    specialNumber?_of_isDigit h, Option.orElse] at hread
  cases hv : numeral? (α := α) (c :: cs) with
  | none => rw [hv] at hread; cases hread
  | some v => rw [hv] at hread; cases hread; rfl

theorem readNumber_of_signed {c : Char} {cs : List Char} {x : α} (h : c.isDigit = true)
    (hread : readNumber ('-' :: c :: cs) = .ok x) : ∃ v, numeral? (c :: cs) = some v ∧ x = -v := by
  simp only [readNumber, decide_true, Bool.true_or, if_true, specialNumber?_of_isDigit h,
    Option.orElse] at hread
  cases hv : numeral? (α := α) (c :: cs) with
  | none => rw [hv] at hread; cases hread
  | some v => rw [hv] at hread; cases hread; exact ⟨v, rfl, rfl⟩

/-- A finite number that reads back from its text, up to its sign. -/
theorem numeral?_unsigned {x : α} (h : HasDecimal x)
    (hread : readNumber (numberText x).toList = .ok x) :
    ∃ v, numeral? (unsigned (numberText x).toList) = some v ∧
      x = if beginsSigned (numberText x).toList then -v else v := by
  obtain ⟨c, cs, hcs, hc⟩ := (isPlainNumeral_unsigned h).head
  rw [eq_unsigned (numberText x).toList, hcs] at hread
  rw [hcs]
  by_cases hsign : beginsSigned (numberText x).toList = true
  · rw [if_pos hsign] at hread
    simpa only [hsign, if_true] using readNumber_of_signed hc hread
  · rw [if_neg hsign] at hread
    exact ⟨x, readNumber_of_isDigit hc hread, by rw [if_neg hsign]⟩

end

end ModalBounds
