import Foolscap.Text

/-!
# Positions and spans

Where something stands in a source text.  Offsets count bytes from 0, lines and columns count from
1, and a column counts the bytes since the last line end.
-/

namespace Foolscap

/-- A place in a source text. -/
structure Position where
  offset : Nat
  line : Nat
  column : Nat
  deriving DecidableEq, Repr, Inhabited

namespace Position

/-- The place of the first byte. -/
def start : Position := ⟨0, 1, 1⟩

/-- The place after a byte. -/
def advanceByte (p : Position) (b : UInt8) : Position :=
  if b = Text.newline then ⟨p.offset + 1, p.line + 1, 1⟩
  else ⟨p.offset + 1, p.line, p.column + 1⟩

/-- The place after some bytes. -/
def advance (p : Position) (t : Text) : Position := t.foldl advanceByte p

@[simp] theorem advance_nil (p : Position) : p.advance [] = p := rfl

@[simp] theorem advance_cons (p : Position) (b : UInt8) (t : Text) :
    p.advance (b :: t) = (p.advanceByte b).advance t := rfl

theorem advance_append (p : Position) (s t : Text) :
    p.advance (s ++ t) = (p.advance s).advance t := by
  simp [advance, List.foldl_append]

@[simp] theorem advanceByte_offset (p : Position) (b : UInt8) :
    (p.advanceByte b).offset = p.offset + 1 := by
  unfold advanceByte
  split <;> rfl

theorem advance_offset (p : Position) (t : Text) :
    (p.advance t).offset = p.offset + t.length := by
  induction t generalizing p with
  | nil => rfl
  | cons b t ih =>
    rw [advance_cons, ih, advanceByte_offset, List.length_cons]
    omega

/-- The place a number of bytes further on the same line. -/
def forward (p : Position) (n : Nat) : Position := ⟨p.offset + n, p.line, p.column + n⟩

end Position

/-- A stretch of source text. -/
structure Span where
  start : Position
  stop : Position
  deriving DecidableEq, Repr, Inhabited

namespace Span

/-- Whether an offset lies in the span, both ends included. -/
def contains (s : Span) (offset : Nat) : Bool :=
  s.start.offset ≤ offset && offset ≤ s.stop.offset

end Span

end Foolscap
