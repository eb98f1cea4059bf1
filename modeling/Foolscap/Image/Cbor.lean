import Foolscap.Text.Number
import Foolscap.Text.Utf8

/-!
# CBOR

Data items of the Concise Binary Object Representation, as far as images need them.  Writing is
canonical: every length and number takes the shortest form.  Reading accepts any well-formed item,
in any form.

## Design Notes

Reading stops at the first flaw, in the order of the bytes.  All bytes are read before any item is
taken for a value, so an item that is too long comes before a text that is not well formed.
-/

namespace Foolscap

/-- A data item.  Strings are kept as the chunks they came in; `negative n` stands for `-1 - n`;
`simple` covers the truth values, null and undefined, and `float` keeps only the width. -/
inductive Cbor where
  | unsigned (n : Nat)
  | negative (n : Nat)
  | bytes (chunks : List Text)
  | text (chunks : List Text)
  | array (items : List Cbor)
  | map (pairs : List (Cbor × Cbor))
  | tag (n : Nat) (content : Cbor)
  | simple (n : Nat)
  | float (width : Nat)
  deriving Inhabited

namespace Cbor

/-- The item for an integer. -/
def ofInt : Int → Cbor
  | .ofNat n => unsigned n
  | .negSucc n => negative n

/-- Null. -/
def null : Cbor := simple 22

/-! ### Writing -/

/-- A number as so many bytes, most significant first. -/
def bigEndian : Nat → Nat → Text
  | 0, _ => []
  | width + 1, n => UInt8.ofNat (n / Nat.pow 256 width) :: bigEndian width n

/-- The head of an item: its major type and a number in the shortest form. -/
def head (major n : Nat) : Text :=
  let first (info : Nat) : UInt8 := UInt8.ofNat (32 * major + info)
  if n < 24 then [first n]
  else if n < 256 then first 24 :: bigEndian 1 n
  else if n < 65536 then first 25 :: bigEndian 2 n
  else if n < 4294967296 then first 26 :: bigEndian 4 n
  else first 27 :: bigEndian 8 n

mutual

/-- The canonical form of an item.  Floats, which no image has, are written as null. -/
def encode : Cbor → Text
  | unsigned n => head 0 n
  | negative n => head 1 n
  | bytes chunks => head 2 chunks.flatten.length ++ chunks.flatten
  | text chunks => head 3 chunks.flatten.length ++ chunks.flatten
  | array items => head 4 items.length ++ encodeAll items
  | map pairs => head 5 pairs.length ++ encodePairs pairs
  | tag n content => head 6 n ++ encode content
  | simple n => head 7 n
  | float _ => head 7 22

/-- The canonical forms of items. -/
def encodeAll : List Cbor → Text
  | [] => []
  | i :: is => encode i ++ encodeAll is

/-- The canonical forms of keys and values. -/
def encodePairs : List (Cbor × Cbor) → Text
  | [] => []
  | (k, v) :: ps => encode k ++ encode v ++ encodePairs ps

end

/-! ### Flaws -/

/-- What items of a major type are called. -/
def nameOf : Nat → Text
  | 0 => "positive integer"
  | 1 => "negative integer"
  | 2 => "byte string"
  | 3 => "UTF-8 text string"
  | 4 => "array"
  | 5 => "map"
  | 6 => "tag"
  | _ => "primitives"

/-- How deep arrays, maps and tags may nest. -/
def maxDepth : Nat := 32

/-- How many items an array and how many pairs a map may have. -/
def maxCount : Nat := 131072

/-- Why bytes are not a data item, or an item is not the value that is wanted.  Items are named by
their major types. -/
inductive Flaw where
  | empty
  | cutShort
  | badInfo (info major : Nat)
  | badSimple (n : Nat)
  | strayBreak
  | strangeChunk (got want : Nat)
  | openChunk (major : Nat)
  | overlong (major n : Nat)
  | tooDeep
  | tooManyItems
  | tooManyPairs
  | trailing (count index : Nat)
  | notUtf8
  | badTag (tags wanted : Text) (got : Nat)
  | mismatch (got : Nat) (type field detail : Text)
  deriving DecidableEq, Repr

namespace Flaw

/-- The wording of a flaw. -/
def message : Flaw → Text
  | empty => "EOF"
  | cutShort => "unexpected EOF"
  | badInfo info major =>
    "cbor: invalid additional information " ++ Text.ofNat info ++ " for type " ++ nameOf major
  | badSimple n => "cbor: invalid simple value " ++ Text.ofNat n ++ " for type primitives"
  | strayBreak => "cbor: unexpected \"break\" code"
  | strangeChunk got want =>
    "cbor: wrong element type " ++ nameOf got ++ " for indefinite-length " ++ nameOf want
  | openChunk major =>
    "cbor: indefinite-length " ++ nameOf major ++ " chunk is not definite-length"
  | overlong major n =>
    let effect : Text :=
      if major < 4 then "causing integer overflow" else "it would cause integer overflow"
    "cbor: " ++ nameOf major ++ " length " ++ Text.ofNat n ++ " is too large, " ++ effect
  | tooDeep => "cbor: exceeded max nested level " ++ Text.ofNat maxDepth
  | tooManyItems =>
    "cbor: exceeded max number of elements " ++ Text.ofNat maxCount ++ " for CBOR array"
  | tooManyPairs =>
    "cbor: exceeded max number of key-value pairs " ++ Text.ofNat maxCount ++ " for CBOR map"
  | trailing count index =>
    "cbor: " ++ Text.ofNat count ++ " bytes of extraneous data starting at index " ++
      Text.ofNat index
  | notUtf8 => "cbor: invalid UTF-8 string"
  | badTag tags wanted got =>
    "cbor: tag number " ++ tags ++ " must be followed by " ++ wanted ++ ", got " ++ nameOf got
  | mismatch got type field detail =>
    let place : Text := if field.isEmpty then "value" else "struct field " ++ field
    let remark : Text := if detail.isEmpty then [] else " (" ++ detail ++ ")"
    "cbor: cannot unmarshal " ++ nameOf got ++ " into Go " ++ place ++ " of type " ++ type ++ remark

/-- The same flaw, in the value of a field. -/
def inField (field : Text) : Flaw → Flaw
  | mismatch got type _ detail => mismatch got type field detail
  | f => f

end Flaw

/-! ### Reading -/

/-- The number that bytes denote, most significant first. -/
def ofBigEndian (t : Text) : Nat := t.foldl (fun n b => 256 * n + b.toNat) 0

/-- What the number in a head says: a value, or that the length is not fixed in advance. -/
inductive Size where
  | fixed (n : Nat)
  | open
  deriving DecidableEq

/-- A head: major type, additional information, size, and the bytes after it. -/
structure Head where
  major : Nat
  info : Nat
  size : Size
  rest : Text

/-- Take so many bytes. -/
def take (n : Nat) (t : Text) : Except Flaw (Text × Text) :=
  let front := t.take n
  if front.length = n then .ok (front, t.drop n) else .error .cutShort

/-- Read a head whose number has so many bytes. -/
def wideHead (major info width : Nat) (t : Text) : Except Flaw Head := do
  let (n, rest) ← take width t
  return ⟨major, info, .fixed (ofBigEndian n), rest⟩

/-- Read a head.  A simple value below 32 may not take two bytes, and only strings, arrays and maps
may be of open length. -/
def readHead : Text → Except Flaw Head
  | [] => .error .cutShort
  | b :: t =>
    let major := b.toNat / 32
    let info := b.toNat % 32
    if info < 24 then .ok ⟨major, info, .fixed info, t⟩
    else match info with
      | 24 => do
        let h ← wideHead major info 1 t
        match h.size with
        | .fixed n => if major = 7 && n < 32 then .error (.badSimple n) else return h
        | .open => return h
      | 25 => wideHead major info 2 t
      | 26 => wideHead major info 4 t
      | 27 => wideHead major info 8 t
      | 31 =>
        if 2 ≤ major && major ≤ 5 then .ok ⟨major, info, .open, t⟩
        else .error (if major = 7 then .strayBreak else .badInfo info major)
      | _ => .error (.badInfo info major)

/-- Refuse a length that is no word. -/
def checkLength (major n : Nat) : Except Flaw Unit :=
  if Text.fitsWord n then .ok () else .error (.overlong major n)

/-- A string of fixed length. -/
def piece (major n : Nat) (t : Text) : Except Flaw (Text × Text) := do
  checkLength major n
  take n t

/-- The chunks of a string of open length. -/
def chunks (major : Nat) : Nat → Text → Except Flaw (List Text × Text)
  | 0, _ | _, [] => .error .cutShort
  | fuel + 1, b :: t =>
    if b = 0xFF then .ok ([], t)
    else if b.toNat / 32 ≠ major then .error (.strangeChunk (b.toNat / 32) major)
    else do
      let h ← readHead (b :: t)
      match h.size with
      | .open => .error (.openChunk major)
      | .fixed n =>
        let (chunk, rest) ← piece major n h.rest
        let (more, rest) ← chunks major fuel rest
        return (chunk :: more, rest)

/-- The chunks of a string. -/
def string (major fuel : Nat) : Size → Text → Except Flaw (List Text × Text)
  | .fixed n, t => do
    let (chunk, rest) ← piece major n t
    return ([chunk], rest)
  | .open, t => chunks major fuel t

/-- Pair up keys and values. -/
def pairUp : List Cbor → Except Flaw (List (Cbor × Cbor))
  | [] => .ok []
  | [_] => .error .strayBreak
  | k :: v :: rest => do return (k, v) :: (← pairUp rest)

/-- How many items are to be read for a size: each part of an array or a map takes so many, and
there may be no more parts than are accepted. -/
def itemsOf (depth major each : Nat) (flaw : Flaw) : Size → Except Flaw Size
  | size => do
    if maxDepth ≤ depth then throw .tooDeep
    match size with
    | .open => return .open
    | .fixed n =>
      checkLength major n
      if maxCount < n then throw flaw
      return .fixed (each * n)

mutual

/-- Read an item at a depth. -/
def item : Nat → Nat → Text → Except Flaw (Cbor × Text)
  | 0, _, _ => .error .cutShort
  | fuel + 1, depth, t => do
    let h ← readHead t
    match h.major, h.size with
    | 0, .fixed n => return (.unsigned n, h.rest)
    | 1, .fixed n => return (.negative n, h.rest)
    | 2, size =>
      let (cs, rest) ← string 2 fuel size h.rest
      return (.bytes cs, rest)
    | 3, size =>
      let (cs, rest) ← string 3 fuel size h.rest
      return (.text cs, rest)
    | 4, size =>
      let size ← itemsOf depth 4 1 .tooManyItems size
      let (is, rest) ← sequence fuel (depth + 1) maxCount .tooManyItems size h.rest
      return (.array is, rest)
    | 5, size =>
      let size ← itemsOf depth 5 2 .tooManyPairs size
      let (is, rest) ← sequence fuel (depth + 1) (2 * maxCount + 1) .tooManyPairs size h.rest
      return (.map (← pairUp is), rest)
    | 6, .fixed n =>
      -- A tag right inside a tag counts as a level of its own.
      let inner := if (h.rest.head?.map fun b => b.toNat / 32) = some 6 then depth + 1 else depth
      if maxDepth < inner then throw .tooDeep
      let (content, rest) ← item fuel inner h.rest
      return (.tag n content, rest)
    | _, .fixed n =>
      return (if h.info ≤ 24 then .simple n else .float (Nat.pow 2 (h.info - 24)), h.rest)
    | _, .open => .error .strayBreak

/-- Read the items of an array or map at a depth.  Where their number is open, at most so many are
accepted, and one more is read before it is refused. -/
def sequence : Nat → Nat → Nat → Flaw → Size → Text → Except Flaw (List Cbor × Text)
  | 0, _, _, _, _, _ => .error .cutShort
  | _, _, _, _, .fixed 0, t => .ok ([], t)
  | fuel + 1, depth, most, flaw, .fixed (n + 1), t => do
    let (i, rest) ← item fuel depth t
    let (is, rest) ← sequence fuel depth most flaw (.fixed n) rest
    return (i :: is, rest)
  | fuel + 1, depth, most, flaw, .open, t =>
    if t.head? = some 0xFF then .ok ([], t.drop 1)
    else do
      let (i, rest) ← item fuel depth t
      match most with
      | 0 => .error flaw
      | most + 1 =>
        let (is, rest) ← sequence fuel depth most flaw .open rest
        return (i :: is, rest)

end

/-- The item that some bytes hold, if they hold exactly one.  Every item takes a byte, and no more
than two calls are nested for each. -/
def decode (t : Text) : Except Flaw Cbor :=
  if t.isEmpty then .error .empty
  else do
    let (i, rest) ← item (2 * t.length + 2) 0 t
    if rest.isEmpty then return i else .error (.trailing rest.length (t.length - rest.length))

/-! ### Values -/

/-- The major type of an item. -/
def major : Cbor → Nat
  | unsigned _ => 0
  | negative _ => 1
  | bytes _ => 2
  | text _ => 3
  | array _ => 4
  | map _ => 5
  | tag _ _ => 6
  | simple _ | float _ => 7

/-- Whether an item is a number, which is what a point in time must be. -/
def isNumber : Cbor → Bool
  | unsigned _ | negative _ | float _ => true
  | _ => false

/-- The item inside all tags.  Dates must be text, points in time numbers, and large numbers byte
strings; a large number keeps its tag. -/
def content : Cbor → Except Flaw Cbor
  | tag 0 c => if c.major = 3 then .ok c else .error (.badTag "0" "text string" c.major)
  | tag 1 c =>
    if c.isNumber then .ok c
    else .error (.badTag "1" "integer or floating-point number" c.major)
  | tag 2 c =>
    if c.major = 2 then .ok (tag 2 c) else .error (.badTag "2 or 3" "byte string" c.major)
  | tag 3 c =>
    if c.major = 2 then .ok (tag 3 c) else .error (.badTag "2 or 3" "byte string" c.major)
  | tag _ c => content c
  | c => .ok c

/-- Whether an item says that there is nothing. -/
def isNothing : Cbor → Bool
  | simple n => n = 22 || n = 23
  | _ => false

/-- The integer that an item without tags denotes.  Simple values without a meaning count as their
numbers. -/
def integer? : Cbor → Option Int
  | unsigned n => some n
  | negative n => some (-1 - (n : Int))
  | tag 2 (bytes chunks) => some (ofBigEndian chunks.flatten)
  | tag 3 (bytes chunks) => some (-1 - (ofBigEndian chunks.flatten : Int))
  | simple n => if 20 ≤ n && n ≤ 23 then none else some n
  | _ => none

/-- The text of some chunks.  Every chunk must be well-formed UTF-8. -/
def joined (chunks : List Text) : Except Flaw Text :=
  if chunks.all Text.isUtf8 then .ok chunks.flatten else .error .notUtf8

/-- Why an item without tags is not of a type.  A text is looked at before it is refused, and so is
a number below all words. -/
def refuse {α : Type} (type : Text) : Cbor → Except Flaw α
  | text chunks => do
    let _ ← joined chunks
    throw (.mismatch 3 type [] [])
  | negative n =>
    let value := -1 - (n : Int)
    let detail : Text :=
      if Text.fitsWord value then [] else Text.ofInt value ++ " overflows Go's int64"
    .error (.mismatch 1 type [] detail)
  | c => .error (.mismatch c.major type [] [])

/-- Read an item with a reader for items without tags; nothing reads as a default. -/
def value {α : Type} (nothing : α) (read : Cbor → Except Flaw α) (c : Cbor) : Except Flaw α := do
  let c ← content c
  if c.isNothing then return nothing else read c

/-- A text. -/
def asText : Cbor → Except Flaw Text
  | text chunks => joined chunks
  | c => refuse "string" c

/-- An integer of a type, between two bounds.  A negative number is out of place where none is
possible, and one below all words nowhere fits. -/
def integerIn (type : Text) (lo hi : Int) (c : Cbor) : Except Flaw Int :=
  match c.integer? with
  | none => refuse type c
  | some n =>
    if lo ≤ n && n ≤ hi then .ok n
    else if c.major = 1 || (n < 0 && Text.fitsWord n) then refuse type c
    else .error (.mismatch c.major type [] (Text.ofInt n ++ " overflows " ++ type))

/-- The items of an array, each with a reader. -/
def list {α : Type} (type : Text) (read : Cbor → Except Flaw α) : Cbor → Except Flaw (List α)
  | array items => items.mapM read
  | c => refuse type c

/-- The bytes of a byte string, or of an array of small numbers. -/
def asBytes : Cbor → Except Flaw Text
  | bytes chunks | tag _ (bytes chunks) => .ok chunks.flatten
  | array items => do
    let ns ← items.mapM (value 0 (integerIn "uint8" 0 255))
    return ns.map fun n => UInt8.ofNat n.toNat
  | c => refuse "[]uint8" c

/-- Whether an item is a key: the number itself as a 64-bit word, or a text with its digits. -/
def isKeyFor (key : Nat) : Cbor → Bool
  | unsigned n => Int64.ofNat n = Int64.ofNat key
  | negative n => Int64.ofInt (-1 - (n : Int)) = Int64.ofNat key
  | text chunks => chunks.flatten = Text.ofNat key
  | _ => false

/-- Which of some keys an item is, if any.  Numbers and well-formed texts can be keys. -/
def key? (keys : List Nat) : Cbor → Except Flaw (Option Nat)
  | text chunks => do
    let _ ← joined chunks
    return keys.find? fun key => (text chunks).isKeyFor key
  | c =>
    if c.major ≤ 1 then .ok (keys.find? fun key => c.isKeyFor key)
    else .error (.mismatch c.major "string" [] ("map key is of type " ++ nameOf c.major ++
      " and cannot be used to match struct field name"))

end Cbor

end Foolscap
