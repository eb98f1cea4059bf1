import Foolscap.Text.Letter
import Foolscap.Token

/-!
# Lexing

From source text to tokens.  Blanks and comments separate tokens, words and numbers are maximal
runs, and a character with code 0 ends the input wherever it stands.

## Design Notes

The lexer walks over the glyphs of the text, so that a stray byte is one character like any other.
Its position always equals the position after the bytes walked over.
-/

namespace Foolscap

namespace Position

/-- The place after a character.  Only a line feed ends a line. -/
def after (p : Position) (g : Glyph) : Position :=
  if g.code = 10 then ⟨p.offset + g.bytes.length, p.line + 1, 1⟩
  else p.forward g.bytes.length

/-- The place after some characters. -/
def afterAll (p : Position) (gs : List Glyph) : Position := gs.foldl after p

end Position

namespace Glyph

/-- Whether a character separates tokens. -/
def isSeparator (g : Glyph) : Bool :=
  g.code = 32 || g.code = 9 || g.code = 10 || g.code = 13

/-- Whether a character is an ASCII digit. -/
def isDigit (g : Glyph) : Bool := 48 ≤ g.code && g.code ≤ 57

/-- Whether a character can start a word. -/
def isWordStart (g : Glyph) : Bool := g.code = 95 || Letter.isLetter g.code

/-- Whether a character can continue a word. -/
def isWordPart (g : Glyph) : Bool := g.isWordStart || g.isDigit

/-- Whether a list of characters starts with a given code. -/
def startsWith (code : Nat) : List Glyph → Bool
  | [] => false
  | g :: _ => g.code = code

end Glyph

namespace Token

/-- What the lexer is in the middle of while it looks for the next token. -/
inductive Gap where
  | blank | lineComment | blockComment
  deriving DecidableEq, Repr

/-- The outcome of skipping: the place and the input left, or the place where a block comment was
still open. -/
inductive Skipped where
  | found (pos : Position) (rest : List Glyph)
  | unterminated (pos : Position)
  deriving DecidableEq, Repr

/-- Skip blanks and comments.  A line comment ends before the end of its line, a block comment with
`*/`; the end of input inside a block comment is an error. -/
def skip : Gap → Position → List Glyph → Skipped
  | .blockComment, p, [] => .unterminated p
  | _, p, [] => .found p []
  | .blank, p, [g] => if g.isSeparator then .found (p.after g) [] else .found p [g]
  | .blank, p, g :: h :: rest =>
    if g.isSeparator then skip .blank (p.after g) (h :: rest)
    else if g.code = 47 && h.code = 47 then skip .lineComment ((p.after g).after h) rest
    else if g.code = 47 && h.code = 42 then skip .blockComment ((p.after g).after h) rest
    else .found p (g :: h :: rest)
  | .lineComment, p, g :: rest =>
    if g.code = 10 then skip .blank (p.after g) rest
    else if g.code = 0 then .found p (g :: rest)
    else skip .lineComment (p.after g) rest
  | .blockComment, p, [g] => if g.code = 0 then .unterminated p else .unterminated (p.after g)
  | .blockComment, p, g :: h :: rest =>
    if g.code = 42 && h.code = 47 then skip .blank ((p.after g).after h) rest
    else if g.code = 0 then .unterminated p
    else skip .blockComment (p.after g) (h :: rest)

/-- Skip blanks and comments in front of the next token. -/
def skipBlanks (p : Position) (gs : List Glyph) : Skipped := skip .blank p gs

/-- The kind of a token that is a single character whatever follows. -/
def single? (code : Nat) : Option TokenKind :=
  match code with
  | 40 => some .lparen
  | 41 => some .rparen
  | 123 => some .lbrace
  | 125 => some .rbrace
  | 44 => some .comma
  | 59 => some .semicolon
  | 58 => some .colon
  | 46 => some .dot
  | 43 => some .plus
  | 45 => some .minus
  | 42 => some .times
  | 47 => some .div
  | 33 => some .not
  | _ => none

/-- The second character and the kind of a token of two characters that starts with a code. -/
def double? (code : Nat) : Option (Nat × TokenKind) :=
  match code with
  | 61 => some (61, .equal)
  | 60 => some (61, .lessEqual)
  | 62 => some (61, .greaterEqual)
  | 38 => some (38, .and)
  | 124 => some (124, .or)
  | _ => none

/-- The token that a character starts, and the input left after it.  The character is neither a
blank nor the end of input. -/
def lexeme (p : Position) (g : Glyph) (gs : List Glyph) : Token × List Glyph :=
  let stray := (⟨.error, "unexpected character: " ++ Text.ofCode g.code, p⟩, gs)
  match single? g.code with
  | some k => (⟨k, g.bytes, p⟩, gs)
  | none =>
    match double? g.code with
    | some (second, k) =>
      if Glyph.startsWith second gs then
        (⟨k, g.bytes ++ Text.ofGlyphs (gs.take 1), p⟩, gs.drop 1)
      else if g.code = 61 then (⟨.assign, g.bytes, p⟩, gs)
      else stray
    | none =>
      if g.isDigit then
        (⟨.integer, g.bytes ++ Text.ofGlyphs (gs.takeWhile Glyph.isDigit), p⟩,
          gs.dropWhile Glyph.isDigit)
      else if g.isWordStart then
        let w := g.bytes ++ Text.ofGlyphs (gs.takeWhile Glyph.isWordPart)
        (⟨TokenKind.ofWord w, w, p⟩, gs.dropWhile Glyph.isWordPart)
      else stray

/-- The first token of the remaining input, and the input after it. -/
def next (p : Position) (gs : List Glyph) : Token × List Glyph :=
  match skipBlanks p gs with
  | .unterminated q => (⟨.error, "unterminated comment", q⟩, [])
  | .found q [] => (⟨.eof, [], q⟩, [])
  | .found q (g :: rest) =>
    if g.code = 0 then (⟨.eof, [], q⟩, g :: rest) else lexeme q g rest

/-- At most a number of tokens of the remaining input.  The sequence stops after the end of input
or an error. -/
def scanFor : Nat → Position → List Glyph → List Token
  | 0, _, _ => []
  | fuel + 1, p, gs =>
    let (t, rest) := next p gs
    if t.kind.isLast then [t] else t :: scanFor fuel t.stop rest

/-- The tokens of a text, up to and including the end of input or the first error. -/
def scan (src : Text) : List Token :=
  let gs := src.glyphs
  scanFor (gs.length + 1) Position.start gs

end Token

end Foolscap
