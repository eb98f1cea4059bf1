import Foolscap.Position
import Foolscap.Text.Letter
import Foolscap.Text.Number

/-!
# Places in an editor

An editor counts lines and the bytes of a line from 0.
-/

namespace Foolscap

/-- A place in an editor. -/
structure Place where
  line : Nat
  character : Nat
  deriving DecidableEq, Repr, Inhabited

namespace Place

/-- The place of a position. -/
def ofPosition (p : Position) : Place := ⟨p.line - 1, p.column - 1⟩

end Place

/-- A stretch of text in an editor. -/
structure Range where
  start : Place
  stop : Place
  deriving DecidableEq, Repr, Inhabited

namespace Range

/-- The range of a span. -/
def ofSpan (s : Span) : Range := ⟨Place.ofPosition s.start, Place.ofPosition s.stop⟩

/-- The empty range at a position. -/
def ofPosition (p : Position) : Range := ⟨Place.ofPosition p, Place.ofPosition p⟩

end Range

namespace Text

/-- The number of bytes before a place so many lines down and so many bytes to the right.  A place
behind the end of its line is taken for that end, and a line behind the last one for the end of the
text. -/
def bytesBefore : Nat → Nat → Text → Nat
  | _, _, [] => 0
  | 0, 0, _ => 0
  | 0, c + 1, b :: t => if b = newline then 0 else bytesBefore 0 c t + 1
  | l + 1, c, b :: t => bytesBefore (if b = newline then l else l + 1) c t + 1

/-- The offset of a place. -/
def offsetAt (t : Text) (p : Place) : Nat := bytesBefore p.line p.character t

theorem bytesBefore_le_length (l c : Nat) (t : Text) : bytesBefore l c t ≤ t.length := by
  induction t generalizing l c with
  | nil => cases l <;> cases c <;> simp [bytesBefore]
  | cons b t ih =>
    cases l with
    | zero =>
      cases c with
      | zero => simp [bytesBefore]
      | succ c =>
        rw [bytesBefore, List.length_cons]
        split
        · omega
        · exact Nat.succ_le_succ (ih 0 c)
    | succ l =>
      rw [bytesBefore, List.length_cons]
      exact Nat.succ_le_succ (ih _ c)

/-- A place never lies behind the text. -/
theorem offsetAt_le_length (t : Text) (p : Place) : t.offsetAt p ≤ t.length :=
  bytesBefore_le_length p.line p.character t

/-- Whether a byte, taken for a character of its own, can stand in a word. -/
def isWordByte (b : UInt8) : Bool := Letter.isLetter b.toNat || isDigitByte b || b = 95

/-- The parts of a line before and after a place.  There are none behind the last line. -/
def around (t : Text) (p : Place) : Text × Text :=
  match t.lines[p.line]? with
  | some line => (line.take p.character, line.drop p.character)
  | none => ([], [])

/-- The part of a word that ends at a place. -/
def fragmentAt (t : Text) (p : Place) : Text :=
  ((t.around p).1.reverse.takeWhile isWordByte).reverse

/-- The word at a place. -/
def wordAt (t : Text) (p : Place) : Text :=
  t.fragmentAt p ++ (t.around p).2.takeWhile isWordByte

end Text

end Foolscap
