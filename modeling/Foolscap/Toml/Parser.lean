import Foolscap.Toml.Scalar

/-!
# Reading TOML

The document that a text holds, by the rules of TOML 1.1.
-/

namespace Foolscap

namespace Toml

/-! ### Text -/

/-- Whether all characters of a text are allowed: no control characters but tabs and line ends, and
no carriage return without a line feed. -/
def isPlain : Text → Bool
  | [] => true
  | [b] => b = 9 || b = 10 || (32 ≤ b && b ≠ 127)
  | b :: c :: t =>
    (b = 9 || b = 10 || (b = 13 && c = 10) || (32 ≤ b && b ≠ 127)) && isPlain (c :: t)

/-- Leave out a byte order mark. -/
def dropMark : Text → Text
  | 0xFF :: 0xFE :: t => t
  | 0xFE :: 0xFF :: t => t
  | 0xEF :: 0xBB :: 0xBF :: t => t
  | t => t

/-- Leave out spaces and tabs. -/
def dropGaps (t : Text) : Text := t.dropWhile isGap

/-- Leave out a comment, but not the line end after it. -/
def dropComment : Text → Text
  | 35 :: t => t.dropWhile (!isLineEnd ·)
  | t => t

/-- Leave out spaces, tabs, line ends and comments. -/
def dropBlank : Nat → Text → Text
  | 0, t => t
  | fuel + 1, t =>
    match t.dropWhile fun b => isGap b || isLineEnd b with
    | 35 :: t => dropBlank fuel (dropComment (35 :: t))
    | t => t

/-- The end of a line: nothing but a comment may come before it. -/
def endOfLine? (t : Text) : Option Text :=
  match dropComment (dropGaps t) with
  | [] => some []
  | b :: t => if isLineEnd b then some (b :: t) else none

/-! ### Keys -/

/-- Whether a byte can stand in a key without quotes. -/
def isBareByte (b : UInt8) : Bool :=
  Text.isDigitByte b || (65 ≤ b && b ≤ 90) || (97 ≤ b && b ≤ 122) || b = 95 || b = 45

/-- One part of a dotted key. -/
def readKeyPart : Text → Option (Text × Text)
  | [] => none
  | b :: t =>
    if b = quote || b = apostrophe then readLine b t
    else
      let name := (b :: t).takeWhile isBareByte
      if name.isEmpty then none else some (name, (b :: t).dropWhile isBareByte)

/-- A dotted key, with gaps around its dots and after it. -/
def readKey : Nat → Text → Option (Key × Text)
  | 0, _ => none
  | fuel + 1, t => do
    let (part, t) ← readKeyPart (dropGaps t)
    match dropGaps t with
    | 46 :: t =>
      let (parts, t) ← readKey fuel t
      return (part :: parts, t)
    | t => return ([part], t)

/-- How a byte is written in a quoted key. -/
def quotedByte (b : UInt8) : Text :=
  match b with
  | 34 => "\\\""
  | 92 => "\\\\"
  | 8 => "\\b"
  | 9 => "\\t"
  | 10 => "\\n"
  | 12 => "\\f"
  | 13 => "\\r"
  | b => if b < 32 || b = 127 then "\\u" ++ Text.hexLower 4 b.toNat else [b]

/-- A part of a key as it can be written. -/
def displayPart (t : Text) : Text :=
  if !t.isEmpty && t.all isBareByte then t else [34] ++ t.flatMap quotedByte ++ [34]

/-- A dotted key as it can be written. -/
def Key.display (k : Key) : Text := Text.join "." (k.map displayPart)

/-! ### Values -/

/-- A document together with the text still to be read. -/
structure Cursor where
  rest : Text
  doc : Document

mutual

/-- A value that is to go under a name.  An inline table is filled in as it is read. -/
def readValue : Nat → Key → Text → Bool → Cursor → Option (Toml × Cursor)
  | 0, _, _, _, _ => none
  | fuel + 1, context, name, inArray, c =>
    match dropGaps c.rest with
    | 91 :: t => do
      let (items, c) ← readItems fuel context name ⟨t, c.doc.noteKind context name true⟩
      return (.array items, c)
    | 123 :: t => do
      let key := context ++ [name]
      let doc ← (c.doc.imply key).enter key inArray
      let (rows, c) ← readPairs fuel key [] ⟨t, doc⟩
      return (.table rows, c)
    | 116 :: 114 :: 117 :: 101 :: t => some (.boolean true, ⟨t, c.doc⟩)
    | 102 :: 97 :: 108 :: 115 :: 101 :: t => some (.boolean false, ⟨t, c.doc⟩)
    | b :: t =>
      if b = quote || b = apostrophe then
        (readString (b :: t)).map fun (s, t) => (.text s, ⟨t, c.doc⟩)
      else (readNumber (b :: t)).map fun (v, t) => (v, ⟨t, c.doc⟩)
    | [] => none

/-- The items of an array up to its end.  A comma may stand after the last one. -/
def readItems : Nat → Key → Text → Cursor → Option (List Toml × Cursor)
  | 0, _, _, _ => none
  | fuel + 1, context, name, c =>
    match dropBlank fuel c.rest with
    | 93 :: t => some ([], ⟨t, c.doc⟩)
    | t => do
      let (v, c) ← readValue fuel context name true ⟨t, c.doc⟩
      match dropBlank fuel c.rest with
      | 44 :: t =>
        let (vs, c) ← readItems fuel context name ⟨t, c.doc⟩
        return (v :: vs, c)
      | 93 :: t => return ([v], ⟨t, c.doc⟩)
      | _ => none

/-- The names and values of an inline table up to its end, on any number of lines.  A comma may
stand after the last one.  `rows` are those already read; a dotted name leads through tables
only. -/
def readPairs : Nat → Key → Table Toml → Cursor → Option (Table Toml × Cursor)
  | 0, _, _, _ => none
  | fuel + 1, context, rows, c =>
    match dropBlank fuel c.rest with
    | 125 :: t => some (rows, ⟨t, c.doc⟩)
    | t => do
      let (key, v, c) ← readPair fuel context ⟨t, c.doc⟩
      let rows ← plant key v rows
      match dropBlank fuel c.rest with
      | 44 :: t => readPairs fuel context rows ⟨t, c.doc⟩
      | 125 :: t => some (rows, ⟨t, c.doc⟩)
      | _ => none

/-- A dotted name and its value. -/
def readPair : Nat → Key → Cursor → Option (Key × Toml × Cursor)
  | 0, _, _ => none
  | fuel + 1, context, c => do
    let (key, t) ← readKey fuel c.rest
    let name ← key.getLast?
    match t with
    | 61 :: t =>
      let (doc, context) ← c.doc.passAll context key.dropLast
      let (v, c) ← readValue fuel context name false ⟨t, doc.noteWritten (context ++ [name])⟩
      let doc ← c.doc.set context name v
      let array := match v with
        | .array _ => true
        | _ => false
      return (key, v, ⟨c.rest, doc.noteKind context name array⟩)
    | _ => none

end

/-! ### Documents -/

/-- A heading, after its opening bracket. -/
def readHeading (fuel : Nat) (c : Cursor) : Option (Key × Cursor) := do
  let (repeated, t) := match c.rest with
    | 91 :: t => (true, t)
    | t => (false, t)
  let (key, t) ← readKey fuel t
  let doc ← c.doc.enter key repeated
  let doc := (doc.noteKind key [] false).noteWritten key
  match repeated, t with
  | true, 93 :: 93 :: t => some (key, ⟨t, doc⟩)
  | false, 93 :: t => some (key, ⟨t, doc⟩)
  | _, _ => none

/-- The lines of a document, given the key of the current table. -/
def readLines : Nat → Key → Cursor → Option Document
  | 0, _, _ => none
  | fuel + 1, context, c =>
    match dropBlank fuel c.rest with
    | [] => some c.doc
    | 91 :: t => do
      let (key, c) ← readHeading fuel ⟨t, c.doc⟩
      let rest ← endOfLine? c.rest
      readLines fuel key ⟨rest, c.doc⟩
    | t => do
      let (_, _, c) ← readPair fuel context ⟨t, c.doc⟩
      let rest ← endOfLine? c.rest
      readLines fuel context ⟨rest, c.doc⟩

/-- The document that a text holds.  Every nested step takes a byte. -/
def Document.parse? (t : Text) : Option Document :=
  let t := dropMark t
  if Text.isUtf8 t && isPlain t then readLines (2 * t.length + 4) [] ⟨t, {}⟩ else none

end Toml

end Foolscap
