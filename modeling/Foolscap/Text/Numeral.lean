import Foolscap.Text.Number

/-!
# Integer literals

Integers as they are written in settings and on the command line: decimal, or binary, octal and
hexadecimal with a mark in front, with underscores between digits.
-/

namespace Foolscap

/-- Why a text is not an integer of 64 bits. -/
inductive NumeralError where
  | malformed
  | outOfRange
  deriving DecidableEq, Repr

namespace NumeralError

/-- The wording of an error. -/
def message : NumeralError → Text
  | malformed => "parse error"
  | outOfRange => "value out of range"

end NumeralError

namespace Text

/-- A byte in lower case, if it is an ASCII letter. -/
def lowerByte (b : UInt8) : UInt8 := if 65 ≤ b && b ≤ 90 then b + 32 else b

/-- The underscore. -/
abbrev underscore : UInt8 := 95

/-- The value of a digit, where letters count on from 10. -/
def digitValue? (b : UInt8) : Option Nat :=
  if isDigitByte b then some (b.toNat - 48)
  else if 97 ≤ lowerByte b && lowerByte b ≤ 122 then some ((lowerByte b).toNat - 87)
  else none

/-- The base that the mark in front of digits stands for. -/
def baseOf? (mark : UInt8) : Option Nat :=
  match lowerByte mark with
  | 98 => some 2
  | 111 => some 8
  | 120 => some 16
  | _ => none

/-- The base of a literal and its digits.  A leading zero alone means octal. -/
def splitBase : Text → Nat × Text
  | 48 :: mark :: d :: t => match baseOf? mark with
    | some base => (base, d :: t)
    | none => (8, mark :: d :: t)
  | 48 :: t => (8, t)
  | t => (10, t)

/-- The number that digits denote after a number already read; underscores are skipped. -/
def readDigits (base : Nat) : Nat → Text → Except NumeralError Nat
  | n, [] => .ok n
  | n, b :: t =>
    if b = underscore then readDigits base n t
    else match digitValue? b with
      | none => .error .malformed
      | some d =>
        if base ≤ d then .error .malformed
        else if 18446744073709551616 ≤ n * base + d then .error .outOfRange
        else readDigits base (n * base + d) t

/-- What stands before the place that is looked at. -/
inductive Before where
  | start | digit | underscore | other
  deriving DecidableEq

/-- Whether every underscore from here on has a digit on both sides. -/
def underscoresFrom (isDigit : UInt8 → Bool) : Before → Text → Bool
  | last, [] => last ≠ .underscore
  | last, b :: t =>
    if isDigit b then underscoresFrom isDigit .digit t
    else if b = underscore then last = .digit && underscoresFrom isDigit .underscore t
    else last ≠ .underscore && underscoresFrom isDigit .other t

/-- Whether every underscore of a literal has a digit on both sides.  The mark of a base counts as
one. -/
def underscoresOk : Text → Bool
  | 48 :: mark :: t => match baseOf? mark with
    | some 16 =>
      underscoresFrom (fun b => isDigitByte b || (97 ≤ lowerByte b && lowerByte b ≤ 102)) .digit t
    | some _ => underscoresFrom isDigitByte .digit t
    | none => underscoresFrom isDigitByte .start (48 :: mark :: t)
  | t => underscoresFrom isDigitByte .start t

/-- The sign of a literal and the rest. -/
def splitSign : Text → Bool × Text
  | 45 :: t => (true, t)
  | 43 :: t => (false, t)
  | t => (false, t)

/-- The 64-bit integer that a literal denotes. -/
def readLiteral (t : Text) : Except NumeralError Int :=
  let (negative, body) := splitSign t
  if body.isEmpty then .error .malformed
  else match readDigits (splitBase body).1 0 (splitBase body).2 with
    | .error e => .error e
    | .ok n =>
      let value : Int := if negative then -n else n
      if body.contains underscore && !underscoresOk body then .error .malformed
      else if fitsWord value then .ok value
      else .error .outOfRange

end Text

end Foolscap
