import ModalBounds.Width.Property

/-!
# The width of texts

How many columns a line of text takes. Most characters take what `ofChar` says on their own, but
some sequences are drawn as one sign: emoji with selectors, skin tones and joiners, and the
ligatures of several scripts. A text is measured from its end: `step` measures a character with what
is known of the characters after it, a `Context`, and `ofText` adds up.
-/

namespace ModalBounds.Width

/-! ### Single characters -/

/-- The columns that a character takes on its own. -/
def ofChar (c : Char) : Nat :=
  if c.toNat ≤ 0xA0 then 1
  else if c.toNat = 0x17D8 then 3
  else if inRanges zeroRanges c then 0
  else if inRanges wideRanges c then 2
  else 1

/-- The character that joins its neighbours. -/
def isJoiner (c : Char) : Bool := c.toNat = 0x200D

/-- The selector that shows a character as an emoji. -/
def isEmojiSelector (c : Char) : Bool := c.toNat = 0xFE0F

/-- The selector that shows a character as text. -/
def isTextSelector (c : Char) : Bool := c.toNat = 0xFE0E

/-- The selector that makes a quotation mark wide. -/
def isWideSelector (c : Char) : Bool := c.toNat = 0xFE01

/-- Marks that are ignorable by default. They do not interrupt a ligature. -/
def isIgnorableMark (c : Char) : Bool :=
  inRanges [(0x34F, 0x34F), (0x17B4, 0x17B5), (0x180B, 0x180D), (0x180F, 0x180F),
    (0xFE00, 0xFE0F), (0xE0100, 0xE01EF)] c

/-- Characters of width zero between two Arabic letters that leave them joined. -/
def isArabicMark (c : Char) : Bool := ofChar c == 0 && !inRanges interruptingRanges c

def isCurlyQuote (c : Char) : Bool := inRanges [(0x2018, 0x2019), (0x201C, 0x201D)] c

def isEmoji (c : Char) : Bool := inRanges emojiRanges c

/-- Whether a selector can show the character as text or as emoji. -/
def isSelectable (c : Char) : Bool := inRanges selectableRanges c

/-- Whether a selector narrows the character to text. Enclosed ideographs stay wide. -/
def isNarrowedAsText (c : Char) : Bool :=
  isSelectable c && isEmoji c && !inRanges [(0x1F200, 0x1F2FF)] c

def isSkinTone (c : Char) : Bool := inRanges [(0x1F3FB, 0x1F3FF)] c

/-- Regional indicators stand for letters; two of them are a flag. -/
def isRegionalIndicator (c : Char) : Bool := inRanges [(0x1F1E6, 0x1F1FF)] c

def isTagLetter (c : Char) : Bool := inRanges [(0xE0061, 0xE007A)] c

def isTagDigit (c : Char) : Bool := inRanges [(0xE0030, 0xE0039)] c

def isTagEnd (c : Char) : Bool := c.toNat = 0xE007F

def isBlackFlag (c : Char) : Bool := c.toNat = 0x1F3F4

def isKeycap (c : Char) : Bool := c.toNat = 0x20E3

def isLam (c : Char) : Bool :=
  inRanges [(0x644, 0x644), (0x6B5, 0x6B8), (0x76A, 0x76A), (0x8A6, 0x8A6), (0x8C7, 0x8C7)] c

def isAlef (c : Char) : Bool :=
  inRanges [(0x622, 0x623), (0x625, 0x625), (0x627, 0x627), (0x671, 0x673), (0x675, 0x675),
    (0x773, 0x774), (0x870, 0x882)] c

/-- Khmer letters that can be written below another one. -/
def isSubscriptable (c : Char) : Bool :=
  inRanges [(0x1780, 0x1782), (0x1784, 0x1787), (0x1789, 0x178C), (0x178E, 0x1793),
    (0x1795, 0x1798), (0x179B, 0x179D), (0x17A0, 0x17A0), (0x17A2, 0x17A2), (0x17A7, 0x17A7),
    (0x17AB, 0x17AC), (0x17AF, 0x17AF)] c

def isTifinaghConsonant (c : Char) : Bool := inRanges [(0x2D31, 0x2D65), (0x2D6F, 0x2D6F)] c

/-! ### What follows -/

/-- The scripts of which two letters join at a joiner. -/
inductive JoiningScript where
  | hebrew
  | buginese
  | tifinagh
  | oldTurkic
deriving DecidableEq, Repr

/-- The beginning of a ligature's end. -/
inductive Ligature where
  /-- An alef, which joins with a lam before it. -/
  | alef
  /-- A letter that joins with one before it, after a joiner or still without. -/
  | letter (script : JoiningScript) (joined : Bool)
  /-- A Buginese vowel sign before a joined letter. -/
  | bugineseVowel
  /-- Two Tifinagh consonants' own joiner before a consonant. -/
  | tifinaghJoiner
  /-- A low Lisu tone, which joins with a high one before it. -/
  | lisuTone
  /-- A Khmer letter, which the sign before it can put below another one. -/
  | khmerLetter
deriving DecidableEq, Repr

/-- The characters after a place, as far as they matter to those before it. -/
inductive Following where
  | other
  | emoji
  | skinTone
  /-- One regional indicator. -/
  | indicator
  /-- Several regional indicators. -/
  | indicators
  /-- A joiner before an emoji. -/
  | joined
  /-- A keycap before a joined emoji. -/
  | joinedKeycap
  /-- So many regional indicators before a joined emoji. -/
  | joinedIndicators (count : Nat)
  /-- The end of a flag's tags before a joined emoji: so many letters, and so many digits before
  them. -/
  | joinedTags (letters digits : Nat)
  /-- The vowel sign E of Kirat Rai. -/
  | kiratVowelE
  /-- The vowel sign AI of Kirat Rai, or two signs E. -/
  | kiratVowelAi
  | ligature (l : Ligature)
deriving DecidableEq, Repr

/-- What follows a place, and the selectors that apply to the character before it. -/
structure Context where
  following : Following := .other
  asEmoji : Bool := false
  asText : Bool := false
  asWide : Bool := false
deriving DecidableEq, Repr

namespace Context

/-- A context in which only the selectors count, unless a ligature may go on before them. -/
def keepLigature (ctx : Context) : Context :=
  match ctx.following with
  | .ligature _ => ctx
  | _ => {}

/-- Puts an emoji selector before what follows. -/
def selectEmoji (ctx : Context) : Context :=
  if ctx.following = .joined || ctx.following = .joinedKeycap then
    { ctx with asEmoji := true }
  else { ctx.keepLigature with asEmoji := true }

/-- Puts a text selector before what follows. -/
def selectText (ctx : Context) : Context := { ctx.keepLigature with asText := true }

/-- Puts a selector for wide quotation marks before what follows. -/
def selectWide (ctx : Context) : Context := { ctx.keepLigature with asWide := true }

end Context

/-- What a character of its own is to the one before it. -/
def startOf (c : Char) : Following :=
  if c.toNat ≤ 0xA0 then .other
  else if isAlef c then .ligature .alef
  else if c.toNat = 0x5DC then .ligature (.letter .hebrew false)
  else if c.toNat = 0x1A10 then .ligature (.letter .buginese false)
  else if isTifinaghConsonant c then .ligature (.letter .tifinagh false)
  else if c.toNat = 0x10C03 then .ligature (.letter .oldTurkic false)
  else if inRanges [(0xA4FC, 0xA4FD)] c then .ligature .lisuTone
  else if isSubscriptable c then .ligature .khmerLetter
  else if c.toNat = 0x16D67 then .kiratVowelE
  else if c.toNat = 0x16D68 then .kiratVowelAi
  else if isRegionalIndicator c then .indicator
  else if isSkinTone c then .skinTone
  else if isEmoji c then .emoji
  else .other

/-! ### Sequences -/

/-- The columns that a character adds before the end of a ligature, if it goes on with it, and what
follows then. -/
def ligatureStep? (l : Ligature) (c : Char) : Option (Int × Following) :=
  match l with
  | .alef =>
    if isLam c then some (0, .other)
    else if isArabicMark c then some (0, .ligature .alef)
    else none
  | .letter script joined =>
    if isJoiner c then some (0, .ligature (.letter script true))
    else if isIgnorableMark c then some (0, .ligature l)
    else
      match script with
      | .hebrew => if joined && c.toNat = 0x5D0 then some (0, .other) else none
      | .buginese =>
        if joined && c.toNat = 0x1A17 then some (0, .ligature .bugineseVowel) else none
      | .tifinagh =>
        if c.toNat = 0x2D7F then some (1, .ligature .tifinaghJoiner)
        else if joined && isTifinaghConsonant c then some (0, .other)
        else none
      | .oldTurkic => if joined && c.toNat = 0x10C32 then some (0, .other) else none
  | l =>
    if isJoiner c || isIgnorableMark c then some (0, .ligature l)
    else
      match l with
      | .bugineseVowel => if c.toNat = 0x1A15 then some (0, .other) else none
      | .tifinaghJoiner => if isTifinaghConsonant c then some (-1, .other) else none
      | .lisuTone => if inRanges [(0xA4F8, 0xA4FB)] c then some (0, .other) else none
      | .khmerLetter => if c.toNat = 0x17D2 then some (-1, .other) else none
      | _ => none

/-- The same before a joiner and an emoji. -/
def joinedStep? (c : Char) : Option (Int × Following) :=
  if isKeycap c then some (0, .joinedKeycap)
  else if isRegionalIndicator c then some (1, .joinedIndicators 1)
  else if isSkinTone c then some (0, .skinTone)
  else if isTagEnd c then some (0, .joinedTags 0 0)
  else if isEmoji c then some (0, .emoji)
  else none

/-- The same before the tags of a flag: three to six letters, or three digits before at most four
letters. -/
def tagsStep? (letters digits : Nat) (c : Char) : Option (Int × Following) :=
  if isTagLetter c && digits = 0 && letters < 6 then some (0, .joinedTags (letters + 1) 0)
  else if isTagDigit c && digits < 3 && letters < 5 then some (0, .joinedTags letters (digits + 1))
  else if isBlackFlag c && ((digits = 0 && 3 ≤ letters) || digits = 3) then some (0, .emoji)
  else none

/-- The columns that a character adds when it goes on with the sequence that follows, and what
follows then. Of regional indicators before a joined emoji, the two next to it are joined too. -/
def sequenceStep? (following : Following) (c : Char) : Option (Int × Following) :=
  match following with
  | .other => none
  | .ligature l => ligatureStep? l c
  | .emoji => if isJoiner c then some (0, .joined) else none
  | .skinTone =>
    if isJoiner c then some (0, .joined)
    else if inRanges skinToneBaseRanges c then some (0, .emoji)
    else none
  | .indicator => if isRegionalIndicator c then some (1, .indicators) else none
  | .indicators =>
    if isRegionalIndicator c then some (1, .indicators)
    else if isJoiner c then some (0, .joined)
    else none
  | .joined => joinedStep? c
  | .joinedKeycap => none
  | .joinedIndicators count =>
    if isRegionalIndicator c then
      some (if count % 2 = 1 then -1 else 3, .joinedIndicators (count + 1))
    else if isJoiner c && 2 ≤ count then some (0, .joined)
    else none
  | .joinedTags letters digits => tagsStep? letters digits c
  | .kiratVowelE =>
    if c.toNat = 0x16D63 || c.toNat = 0x16D69 then some (0, .other)
    else if c.toNat = 0x16D67 then some (0, .kiratVowelAi)
    else if c.toNat = 0x16D68 then some (1, .kiratVowelE)
    else none
  | .kiratVowelAi => if c.toNat = 0x16D63 then some (0, .other) else none

/-- The columns of a character that no selector applies to, and the context before it. -/
def stepPlain (following : Following) (c : Char) : Int × Context :=
  match sequenceStep? following c with
  | some (columns, following) => (columns, { following })
  | none => (ofChar c, { following := startOf c })

/-- The columns that a character adds in a context, and the context before it. A selector applies to
the character directly before it; where it does not fit, it counts as nothing. -/
def step (ctx : Context) (c : Char) : Int × Context :=
  if ctx.asEmoji && isSelectable c then
    let isJoined := ctx.following = .joined || ctx.following = .joinedKeycap
    (if isJoined then 0 else 2, { following := .emoji })
  else
    let ctx := if ctx.asEmoji then { ctx.keepLigature with asEmoji := false } else ctx
    if c.toNat ≤ 0xA0 then (1, {})
    else if isEmojiSelector c then (0, ctx.selectEmoji)
    else if isTextSelector c then (0, ctx.selectText)
    else if isWideSelector c then (0, ctx.selectWide)
    else if ctx.asText && isNarrowedAsText c then (1, {})
    else if ctx.asWide && isCurlyQuote c then (2, {})
    else stepPlain ctx.following c

/-- The columns that a line of text takes. -/
def ofText (text : List Char) : Nat :=
  let (columns, _) := text.foldr
    (fun c (columns, ctx) =>
      let (more, ctx) := step ctx c
      (columns + more, ctx))
    ((0 : Int), ({} : Context))
  columns.toNat

end ModalBounds.Width
