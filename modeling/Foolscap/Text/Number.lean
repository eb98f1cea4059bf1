import Foolscap.Text

/-!
# Numbers as text

Decimal and hexadecimal numerals, written and read.  Reading accepts an optional sign and decimal
digits, and only numbers of the signed 64-bit range.
-/

namespace Foolscap

/-- The machine's number: 64 bits in two's complement. -/
abbrev Word := Int64

namespace Text

/-- The ASCII byte of a decimal digit. -/
def digitByte (d : Nat) : UInt8 := UInt8.ofNat (48 + d)

/-- Whether a byte is one of `0` to `9`. -/
def isDigitByte (b : UInt8) : Bool := 48 ≤ b && b ≤ 57

/-- The decimal digits of a number put in front of a text, least significant digit last. -/
def decimalOnto : Nat → Nat → Text → Text
  | 0, _, acc => acc
  | fuel + 1, n, acc =>
    if n < 10 then digitByte n :: acc
    else decimalOnto fuel (n / 10) (digitByte (n % 10) :: acc)

/-- A natural number in decimal. -/
def ofNat (n : Nat) : Text := decimalOnto (n + 1) n []

/-- An integer in decimal, with a minus sign in front of a negative one. -/
def ofInt : Int → Text
  | .ofNat n => ofNat n
  | .negSucc n => 45 :: ofNat (n + 1)

/-- A machine word in decimal. -/
def ofWord (w : Word) : Text := ofInt w.toInt

/-- An integer in decimal that carries a sign also when it is not negative. -/
def signed : Int → Text
  | .ofNat n => 43 :: ofNat n
  | .negSucc n => 45 :: ofNat (n + 1)

/-- The ASCII byte of a hexadecimal digit; letters start at the byte `ten`. -/
def hexByte (ten : UInt8) (d : Nat) : UInt8 :=
  if d < 10 then digitByte d else ten + UInt8.ofNat (d - 10)

/-- The hexadecimal digits of a number put in front of a text. -/
def hexOnto (ten : UInt8) : Nat → Nat → Text → Text
  | 0, _, acc => acc
  | fuel + 1, n, acc =>
    if n < 16 then hexByte ten n :: acc
    else hexOnto ten fuel (n / 16) (hexByte ten (n % 16) :: acc)

/-- A number in hexadecimal, filled with zeros on the left up to a width. -/
def hex (ten : UInt8) (width n : Nat) : Text :=
  let digits := hexOnto ten (n + 1) n []
  List.replicate (width - digits.length) 48 ++ digits

/-- Hexadecimal with the letters `a` to `f`. -/
def hexLower (width n : Nat) : Text := hex 97 width n

/-- Hexadecimal with the letters `A` to `F`. -/
def hexUpper (width n : Nat) : Text := hex 65 width n

/-- The number that decimal digits denote after a number already read; `none` at any other byte. -/
def digitsFrom (n : Nat) : Text → Option Nat
  | [] => some n
  | b :: t => if isDigitByte b then digitsFrom (10 * n + (b.toNat - 48)) t else none

/-- The number that a non-empty run of decimal digits denotes. -/
def toNat? : Text → Option Nat
  | [] => none
  | t => digitsFrom 0 t

/-- The least and the greatest machine word, as integers. -/
def fitsWord (n : Int) : Bool := -9223372036854775808 ≤ n && n ≤ 9223372036854775807

/-- The integer that an optional sign and decimal digits denote. -/
def toInt? : Text → Option Int
  | 45 :: t => (toNat? t).map fun n => -(n : Int)
  | 43 :: t => (toNat? t).map fun n => (n : Int)
  | t => (toNat? t).map fun n => (n : Int)

/-- The machine word that a numeral denotes; `none` for anything else and outside the range. -/
def toWord? (t : Text) : Option Word :=
  match toInt? t with
  | some n => if fitsWord n then some (Int64.ofInt n) else none
  | none => none

end Text

end Foolscap
