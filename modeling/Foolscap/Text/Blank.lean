import Foolscap.Text.Utf8

/-!
# Blanks

White space of any script: trimming a text and taking it apart into words.
-/

namespace Foolscap

namespace Blank

/-- Whether a code point is white space: the ASCII blanks, the next-line control and the space
separators. -/
def isBlank (c : Nat) : Bool :=
  (9 ≤ c && c ≤ 13) || c == 0x20 || c == 0x85 || c == 0xA0 || c == 0x1680 ||
    (0x2000 ≤ c && c ≤ 0x200A) || c == 0x2028 || c == 0x2029 || c == 0x202F || c == 0x205F ||
    c == 0x3000

end Blank

namespace Glyph

/-- Whether a glyph is white space. -/
def isBlank (g : Glyph) : Bool := Blank.isBlank g.code

end Glyph

namespace Text

/-- The text without the white space at its beginning and its end. -/
def trim (t : Text) : Text :=
  ofGlyphs (((t.glyphs.dropWhile Glyph.isBlank).reverse.dropWhile Glyph.isBlank).reverse)

/-- The words among glyphs, given the bytes of the word being read. -/
def wordsFrom : Text → List Glyph → List Text
  | [], [] => []
  | w, [] => [w]
  | w, g :: gs =>
    if g.isBlank then
      match w with
      | [] => wordsFrom [] gs
      | w => w :: wordsFrom [] gs
    else wordsFrom (w ++ g.bytes) gs

/-- The runs of characters between white space. -/
def words (t : Text) : List Text := wordsFrom [] t.glyphs

end Text

end Foolscap
