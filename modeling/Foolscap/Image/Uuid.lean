import Foolscap.Text.Number

/-!
# Build identifiers

Random universally unique identifiers, of version 4.
-/

namespace Foolscap

namespace Uuid

/-- The byte at a position, with the bits that tell version and variant put in. -/
def mark (position : Nat) (b : UInt8) : UInt8 :=
  if position = 6 then (b &&& 0x0F) ||| 0x40
  else if position = 8 then (b &&& 0x3F) ||| 0x80
  else b

/-- The positions of the bytes that a dash comes before. -/
def dashBefore (position : Nat) : Bool :=
  position = 4 || position = 6 || position = 8 || position = 10

/-- The identifier made from random bytes, of which the first sixteen count. -/
def ofBytes (bs : Text) : Text :=
  (bs.take 16).zipIdx.flatMap fun (b, i) =>
    (if dashBefore i then [45] else []) ++ Text.hexLower 2 (mark i b).toNat

/-- Whether a byte is a digit or one of `a` to `f`. -/
def isHexByte (b : UInt8) : Bool := Text.isDigitByte b || (97 ≤ b && b ≤ 102)

/-- Whether a byte may stand at a position of an identifier. -/
def fits (position : Nat) (b : UInt8) : Bool :=
  if position = 8 || position = 13 || position = 18 || position = 23 then b = 45
  else if position = 14 then b = 52
  else if position = 19 then b = 56 || b = 57 || b = 97 || b = 98
  else isHexByte b

/-- Whether a text is a random identifier in lower case. -/
def isRandom (t : Text) : Bool :=
  t.length = 36 && t.zipIdx.all fun (b, i) => fits i b

end Uuid

end Foolscap
