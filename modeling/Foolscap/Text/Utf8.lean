import Foolscap.Text

/-!
# UTF-8

Reading text as characters.  A byte that does not start a well-formed UTF-8 sequence counts as one
character of its own, the replacement character, so that every text can be read and no byte is
lost.
-/

namespace Foolscap

/-- A character as it was read: its code point and the bytes that stood for it. -/
structure Glyph where
  code : Nat
  bytes : Text
  deriving DecidableEq, Repr

namespace Glyph

/-- The code point that stands for a byte that is not part of a well-formed sequence. -/
def replacement : Nat := 0xFFFD

/-- Whether the glyph stands for a stray byte rather than for a well-formed sequence. -/
def isStray (g : Glyph) : Bool := g.code == replacement && g.bytes.length == 1

end Glyph

namespace Text

/-- Whether a byte lies in a range, ends included. -/
def byteIn (lo hi b : UInt8) : Bool := lo ≤ b && b ≤ hi

/-- Whether a byte can continue a sequence. -/
def isTail (b : UInt8) : Bool := byteIn 0x80 0xBF b

/-- The six low bits of a continuation byte. -/
def tailBits (b : UInt8) : Nat := b.toNat % 64

/-- The range that the second byte of a three-byte sequence must lie in, given the first: it shuts
out overlong sequences and surrogates. -/
def secondOfThree (a b : UInt8) : Bool :=
  if a = 0xE0 then byteIn 0xA0 0xBF b
  else if a = 0xED then byteIn 0x80 0x9F b
  else isTail b

/-- The range that the second byte of a four-byte sequence must lie in, given the first: it shuts
out overlong sequences and code points above U+10FFFF. -/
def secondOfFour (a b : UInt8) : Bool :=
  if a = 0xF0 then byteIn 0x90 0xBF b
  else if a = 0xF4 then byteIn 0x80 0x8F b
  else isTail b

/-- The code point of the well-formed sequence that a byte and the bytes after it start with, and
the number of bytes after the first that belong to it. -/
def sequence? (a : UInt8) (rest : Text) : Option (Nat × Nat) :=
  if a < 0x80 then some (a.toNat, 0)
  else if byteIn 0xC2 0xDF a then
    match rest with
    | b :: _ =>
      if isTail b then some ((a.toNat % 32) * 64 + tailBits b, 1) else none
    | _ => none
  else if byteIn 0xE0 0xEF a then
    match rest with
    | b :: c :: _ =>
      if secondOfThree a b && isTail c then
        some (((a.toNat % 16) * 64 + tailBits b) * 64 + tailBits c, 2)
      else none
    | _ => none
  else if byteIn 0xF0 0xF4 a then
    match rest with
    | b :: c :: d :: _ =>
      if secondOfFour a b && isTail c && isTail d then
        some ((((a.toNat % 8) * 64 + tailBits b) * 64 + tailBits c) * 64 + tailBits d, 3)
      else none
    | _ => none
  else none

/-- The glyph that a non-empty text starts with. -/
def firstGlyph (a : UInt8) (rest : Text) : Glyph :=
  match sequence? a rest with
  | some (code, n) => ⟨code, a :: rest.take n⟩
  | none => ⟨Glyph.replacement, [a]⟩

/-- The glyphs of a text whose first `pending` bytes belong to a glyph already read. -/
def glyphsAfter : Nat → Text → List Glyph
  | _, [] => []
  | pending + 1, _ :: t => glyphsAfter pending t
  | 0, a :: t =>
    let g := firstGlyph a t
    g :: glyphsAfter (g.bytes.length - 1) t

/-- The characters of a text. -/
def glyphs (t : Text) : List Glyph := glyphsAfter 0 t

/-- The bytes of a list of glyphs. -/
def ofGlyphs (gs : List Glyph) : Text := gs.flatMap Glyph.bytes

@[simp] theorem ofGlyphs_nil : ofGlyphs [] = [] := rfl

@[simp] theorem ofGlyphs_cons (g : Glyph) (gs : List Glyph) :
    ofGlyphs (g :: gs) = g.bytes ++ ofGlyphs gs := rfl

theorem firstGlyph_bytes (a : UInt8) (rest : Text) :
    (firstGlyph a rest).bytes ++ rest.drop ((firstGlyph a rest).bytes.length - 1) = a :: rest := by
  unfold firstGlyph
  split
  · next code n _ =>
    simp only [List.cons_append, List.length_cons, List.length_take, Nat.add_sub_cancel,
      List.cons.injEq, true_and]
    rcases Nat.le_total n rest.length with h | h
    · rw [Nat.min_eq_left h, List.take_append_drop]
    · rw [Nat.min_eq_right h, List.take_of_length_le h, List.drop_length, List.append_nil]
  · simp

/-- Skipping the pending bytes and then reading is reading the rest. -/
theorem ofGlyphs_glyphsAfter (pending : Nat) (t : Text) :
    ofGlyphs (glyphsAfter pending t) = t.drop pending := by
  induction t generalizing pending with
  | nil => simp [glyphsAfter]
  | cons a t ih =>
    cases pending with
    | succ n => simp [glyphsAfter, ih]
    | zero =>
      rw [glyphsAfter, ofGlyphs_cons, ih]
      exact firstGlyph_bytes a t

/-- Reading a text as characters loses nothing. -/
theorem bytes_glyphs (t : Text) : ofGlyphs t.glyphs = t := by
  rw [glyphs, ofGlyphs_glyphsAfter, List.drop_zero]

/-- Whether a text is well-formed UTF-8. -/
def isUtf8 (t : Text) : Bool := t.glyphs.all fun g => !g.isStray

/-- The UTF-8 bytes of a code point.  What is not a code point of a character becomes the
replacement character. -/
def ofCode (c : Nat) : Text :=
  let tail (n : Nat) : UInt8 := UInt8.ofNat (0x80 + n % 64)
  if c < 0x80 then [UInt8.ofNat c]
  else if c < 0x800 then [UInt8.ofNat (0xC0 + c / 64), tail c]
  else if (0xD800 ≤ c && c < 0xE000) || 0x110000 ≤ c then [0xEF, 0xBF, 0xBD]
  else if c < 0x10000 then [UInt8.ofNat (0xE0 + c / 4096), tail (c / 64), tail c]
  else [UInt8.ofNat (0xF0 + c / 262144), tail (c / 4096), tail (c / 64), tail c]

end Text

end Foolscap
