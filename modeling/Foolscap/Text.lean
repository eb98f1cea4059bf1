/-!
# Text

A text is a list of bytes.  Source files, assembly and messages are all texts: offsets and columns
count bytes, and a file need not be well-formed UTF-8, so nothing here assumes that it is.
-/

namespace Foolscap

/-- A list of bytes. -/
abbrev Text := List UInt8

namespace Text

/-- The UTF-8 bytes of a string. -/
def ofString (s : String) : Text := s.toByteArray.data.toList

instance : Coe String Text := ⟨ofString⟩

-- Named, so that a test for membership holds no proof of its own.
instance : LawfulBEq Text := inferInstance

/-- The byte that ends a line. -/
abbrev newline : UInt8 := 10

/-- Put a separator between neighbouring texts. -/
def join (sep : Text) : List Text → Text
  | [] => []
  | [t] => t
  | t :: u :: us => t ++ sep ++ join sep (u :: us)

@[simp] theorem join_nil (sep : Text) : join sep [] = [] := rfl

@[simp] theorem join_singleton (sep t : Text) : join sep [t] = t := rfl

@[simp] theorem join_cons_cons (sep t u : Text) (us : List Text) :
    join sep (t :: u :: us) = t ++ sep ++ join sep (u :: us) := rfl

/-- Every text followed by a line end. -/
def unlines (lines : List Text) : Text :=
  lines.flatMap (· ++ [newline])

/-- The parts of a text between the occurrences of one byte.  There is always at least one part. -/
def splitAt (b : UInt8) : Text → List Text
  | [] => [[]]
  | c :: t =>
    if c = b then [] :: splitAt b t
    else match splitAt b t with
      | [] => [[c]]
      | p :: ps => (c :: p) :: ps

@[simp] theorem splitAt_nil (b : UInt8) : splitAt b [] = [[]] := rfl

theorem splitAt_ne_nil (b : UInt8) (t : Text) : splitAt b t ≠ [] := by
  cases t with
  | nil => simp
  | cons c t =>
    rw [splitAt]
    split
    · simp
    · split <;> simp

/-- Joining the parts of a split text with the byte it was split at gives the text back. -/
theorem join_splitAt (b : UInt8) (t : Text) : join [b] (splitAt b t) = t := by
  induction t with
  | nil => rfl
  | cons c t ih =>
    rw [splitAt]
    split
    · next h =>
      cases hs : splitAt b t with
      | nil => exact absurd hs (splitAt_ne_nil b t)
      | cons p ps => rw [hs] at ih; simp [ih, h]
    · split
      · next hs => exact absurd hs (splitAt_ne_nil b t)
      · next p ps hs =>
        rw [hs] at ih
        cases ps with
        | nil => simpa using ih
        | cons q qs => simpa using ih

/-- The lines of a text: its parts between line ends. -/
def lines (t : Text) : List Text := splitAt newline t

/-- Byte order: a text comes before another one unless the other is strictly smaller. -/
def before : Text → Text → Bool
  | [], _ => true
  | _ :: _, [] => false
  | a :: s, b :: t => if a = b then before s t else a < b

/-- Spaces up to a width, then the text. -/
def padLeft (width : Nat) (t : Text) : Text :=
  List.replicate (width - t.length) 32 ++ t

/-- The text, then spaces up to a width. -/
def padRight (width : Nat) (t : Text) : Text :=
  t ++ List.replicate (width - t.length) 32

end Text

end Foolscap
