import Foolscap.Text.Graphic
import Foolscap.Text.Number
import Foolscap.Text.Utf8

/-!
# Quoted text

A text between double quotes, such that the reader sees every byte: graphic characters stand for
themselves, control characters and other invisible ones are escaped, and a byte that is not part
of a well-formed character is given by its number.
-/

namespace Foolscap

namespace Glyph

/-- The letter that follows the backslash in the short escape of a control character. -/
def shortEscape : Nat → Option UInt8
  | 7 => some 97
  | 8 => some 98
  | 9 => some 116
  | 10 => some 110
  | 11 => some 118
  | 12 => some 102
  | 13 => some 114
  | _ => none

/-- A character inside quotes: a stray byte by its value, quote and backslash after a backslash,
graphic characters unchanged, and all others by a short escape or by their number. -/
def escaped (g : Glyph) : Text :=
  if g.isStray then
    "\\x" ++ g.bytes.flatMap fun b => Text.hexLower 2 b.toNat
  else if g.code = 34 || g.code = 92 then 92 :: g.bytes
  else if Graphic.isGraphic g.code then g.bytes
  else match shortEscape g.code with
    | some b => [92, b]
    | none =>
      if g.code < 0x20 || g.code = 0x7F then "\\x" ++ Text.hexLower 2 g.code
      else if g.code < 0x10000 then "\\u" ++ Text.hexLower 4 g.code
      else "\\U" ++ Text.hexLower 8 g.code

end Glyph

namespace Text

/-- The text in double quotes, with everything invisible escaped. -/
def quoted (t : Text) : Text := 34 :: t.glyphs.flatMap Glyph.escaped ++ [34]

end Text

end Foolscap
