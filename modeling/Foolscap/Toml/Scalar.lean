import Foolscap.Text.Numeral
import Foolscap.Text.Utf8
import Foolscap.Toml

/-!
# TOML scalars

Strings, numbers and dates, each with a reader that takes it from the front of a text.
-/

namespace Foolscap

namespace Toml

/-! ### Strings -/

/-- The double quote. -/
abbrev quote : UInt8 := 34

/-- The single quote. -/
abbrev apostrophe : UInt8 := 39

/-- The backslash. -/
abbrev backslash : UInt8 := 92

/-- Whether a byte ends a line. -/
def isLineEnd (b : UInt8) : Bool := b = 10 || b = 13

/-- Whether a byte is a space or a tab. -/
def isGap (b : UInt8) : Bool := b = 32 || b = 9

/-- Whether a byte is a hexadecimal digit. -/
def isHexDigit (b : UInt8) : Bool :=
  match Text.digitValue? b with
  | some d => d < 16
  | none => false

/-- The number of hexadecimal digits after the letter of an escape. -/
def codeWidth : UInt8 → Nat
  | 120 => 2
  | 117 => 4
  | 85 => 8
  | _ => 0

/-- Whether the digits that the letter of an escape asks for follow it. -/
def codeFollows (letter : UInt8) (t : Text) : Bool :=
  let digits := t.take (codeWidth letter)
  digits.length = codeWidth letter && digits.all isHexDigit

/-- The bytes of a string on one line up to its closing quote, and what follows.  A backslash takes
the next byte with it, unless the string is literal. -/
def lineBody (q : UInt8) (literal : Bool) : Text → Option (Text × Text)
  | [] => none
  | b :: t =>
    if b = q then some ([], t)
    else if isLineEnd b then none
    else if b = backslash && !literal then
      match t with
      | [] => none
      | c :: t =>
        if codeFollows c t then (lineBody q literal t).map fun (s, rest) => (b :: c :: s, rest)
        else none
    else (lineBody q literal t).map fun (s, rest) => (b :: s, rest)

/-- The bytes of a string on several lines up to its closing quotes, and what follows.  The string
ends with the first run of three or more quotes, whose last three close it.  `longest` is the length
that such a run may have: two quotes may stand right before the closing ones, and three right after
a backslash that is itself escaped. -/
def blockBody (q : UInt8) (literal : Bool) (longest : Nat) : Text → Option (Text × Text)
  | [] => none
  | b :: t =>
    if b = q then
      let run := 1 + (t.takeWhile (· = q)).length
      if run < 3 then (blockBody q literal 5 t).map fun (s, rest) => (b :: s, rest)
      else if run ≤ longest then some (List.replicate (run - 3) q, t.dropWhile (· = q))
      else none
    else if b = backslash && !literal then
      match t with
      | [] => none
      | c :: t =>
        if codeFollows c t then
          (blockBody q literal (if c = backslash then 6 else 5) t).map fun (s, rest) =>
            (b :: c :: s, rest)
        else none
    else (blockBody q literal 5 t).map fun (s, rest) => (b :: s, rest)

/-- Leave out a line end at the very beginning. -/
def dropFirstLineEnd : Text → Text
  | 10 :: t => t
  | 13 :: 10 :: t => t
  | t => t

/-- Leave out every backslash at the end of a line, with the white space after it. -/
def joinLines : Nat → Text → Text
  | 0, t => t
  | _, [] => []
  | fuel + 1, b :: t =>
    if b = backslash then
      let gap := t.takeWhile fun c => isGap c || isLineEnd c
      if gap.contains 10 then joinLines fuel (t.drop gap.length)
      else match t with
        | c :: t =>
          if c = backslash then b :: c :: joinLines fuel t else b :: joinLines fuel (c :: t)
        | [] => [b]
    else b :: joinLines fuel t

/-- The number that hexadecimal digits denote. -/
def hexValue? (t : Text) : Option Nat :=
  match t.mapM Text.digitValue? with
  | some ds => if ds.all (· < 16) then some (ds.foldl (fun n d => 16 * n + d) 0) else none
  | none => none

/-- The character with a number given by hexadecimal digits, as many as the letter of an escape asks
for, and what follows. -/
def readCode (letter : UInt8) (t : Text) : Option (Text × Text) :=
  let width := codeWidth letter
  if codeFollows letter t then
    match hexValue? (t.take width) with
    | some c =>
      if c < 0xD800 || (0xE000 ≤ c && c < 0x110000) then some (Text.ofCode c, t.drop width)
      else none
    | none => none
  else none

/-- What a backslash and the bytes after it stand for. -/
def readEscape : Text → Option (Text × Text)
  | [] => none
  | b :: t =>
    match b with
    | 98 => some ([8], t)
    | 116 => some ([9], t)
    | 110 => some ([10], t)
    | 102 => some ([12], t)
    | 114 => some ([13], t)
    | 101 => some ([27], t)
    | 34 => some ([34], t)
    | 92 => some ([92], t)
    | _ => if codeWidth b = 0 then none else readCode b t

/-- Replace all escapes. -/
def unescape : Nat → Text → Option Text
  | _, [] => some []
  | 0, _ => none
  | fuel + 1, b :: t =>
    if b = backslash then
      match readEscape t with
      | some (s, rest) => (unescape fuel rest).map (s ++ ·)
      | none => none
    else (unescape fuel t).map (b :: ·)

/-- A string on one line, after its opening quote. -/
def readLine (q : UInt8) (t : Text) : Option (Text × Text) :=
  let literal := q = apostrophe
  match lineBody q literal t with
  | some (body, rest) =>
    if literal then some (body, rest)
    else (unescape body.length body).map fun s => (s, rest)
  | none => none

/-- A string on several lines, after its opening quotes. -/
def readBlock (q : UInt8) (t : Text) : Option (Text × Text) :=
  let literal := q = apostrophe
  match blockBody q literal 5 t with
  | some (body, rest) =>
    let body := dropFirstLineEnd body
    if literal then some (body, rest)
    else
      let body := joinLines body.length body
      (unescape body.length body).map fun s => (s, rest)
  | none => none

/-- A string of any kind, from its opening quote on. -/
def readString : Text → Option (Text × Text)
  | a :: b :: c :: t =>
    if a = b && a = c then readBlock a t else readLine a (b :: c :: t)
  | a :: t => readLine a t
  | [] => none

/-! ### Numbers -/

/-- Whether every underscore stands between digits, and the last byte is a digit. -/
def spacedFrom : Bool → Text → Bool
  | ok, [] => ok
  | ok, b :: t =>
    if b = Text.underscore then ok && spacedFrom false t else spacedFrom (isHexDigit b) t

/-- Whether underscores are used well in a number. -/
def spaced (t : Text) : Bool := spacedFrom false t

/-- Whether a number has a zero too many in front. -/
def hasLeadingZero : Text → Bool
  | 48 :: b :: _ => (Text.baseOf? b).isNone || Text.lowerByte b ≠ b
  | 45 :: 48 :: _ :: _ => true
  | 43 :: 48 :: _ :: _ => true
  | _ => false

/-- An integer. -/
def integer? (t : Text) : Option Toml :=
  if spaced t && !hasLeadingZero t then
    match Text.readLiteral t with
    | .ok n => some (.integer n)
    | .error _ => none
  else none

/-- Whether a byte marks the exponent. -/
def isExponentMark (b : UInt8) : Bool := b = 101 || b = 69

/-- The parts of a float between its point and the mark of its exponent. -/
def floatParts (t : Text) : List Text :=
  (Text.splitAt 46 (t.map fun b => if isExponentMark b then 46 else b)).filter (· ≠ [])

/-- Whether a digit follows every point. -/
def pointsOk : Text → Bool
  | [] => true
  | [b] => b ≠ 46
  | b :: c :: t => (b ≠ 46 || Text.isDigitByte c) && pointsOk (c :: t)

/-- The exponent after its mark: an optional sign and digits. -/
def exponent? (t : Text) : Option Int := Text.toInt? t

/-- Whether digits with an exponent denote a number that is too large for a double: the least such
number is `2 ^ 1024 - 2 ^ 970`. -/
def overflows (digits : Text) (exponent : Int) : Bool :=
  let significant := digits.dropWhile (· = 48)
  let magnitude : Int := significant.length + exponent
  if significant.isEmpty || magnitude < 300 then false
  else if 400 < magnitude then true
  else match Text.toNat? significant with
    | none => false
    | some n =>
      let limit := Nat.pow 2 1024 - Nat.pow 2 970
      if 0 ≤ exponent then limit ≤ n * Nat.pow 10 exponent.toNat
      else limit * Nat.pow 10 (-exponent).toNat ≤ n

/-- Whether a text is a float of double range: a sign, digits, a point and digits, and an exponent,
the last two optional. -/
def isDouble (t : Text) : Bool :=
  let body := (Text.splitSign t).2
  let mantissa := body.takeWhile (!isExponentMark ·)
  let whole := mantissa.takeWhile Text.isDigitByte
  let fraction := match mantissa.dropWhile Text.isDigitByte with
    | [] => some []
    | 46 :: f => if f.all Text.isDigitByte then some f else none
    | _ => none
  let exponent := match body.dropWhile (!isExponentMark ·) with
    | [] => some 0
    | _ :: e => exponent? e
  match fraction, exponent with
  | some f, some e =>
    !(whole.isEmpty && f.isEmpty) && !overflows (whole ++ f) (e - f.length)
  | _, _ => false

/-- A float. -/
def float? (t : Text) : Option Toml :=
  let parts := floatParts t
  if parts.all spaced && !((parts.head?.map hasLeadingZero).getD false) && pointsOk t &&
      isDouble (t.filter (· ≠ Text.underscore)) then some .float
  else none

/-! ### Dates -/

/-- The number that so many digits at the front denote, and what follows. -/
def digits? (width : Nat) (t : Text) : Option (Nat × Text) :=
  let front := t.take width
  if front.length = width then (Text.toNat? front).map fun n => (n, t.drop width) else none

/-- What follows a byte. -/
def after? (b : UInt8) : Text → Option Text
  | c :: t => if c = b then some t else none
  | [] => none

/-- The number of days of a month. -/
def daysIn (year month : Nat) : Nat :=
  if month = 2 then
    if year % 4 = 0 && (year % 100 ≠ 0 || year % 400 = 0) then 29 else 28
  else if month = 4 || month = 6 || month = 9 || month = 11 then 30
  else 31

/-- What follows a day. -/
def afterDay? (t : Text) : Option Text := do
  let (year, t) ← digits? 4 t
  let (month, t) ← digits? 2 (← after? 45 t)
  let (day, t) ← digits? 2 (← after? 45 t)
  if 1 ≤ month && month ≤ 12 && 1 ≤ day && day ≤ daysIn year month then some t else none

/-- What follows a fraction of a second, if there is one. -/
def afterFraction : Text → Text
  | 46 :: d :: t => if Text.isDigitByte d then t.dropWhile Text.isDigitByte else 46 :: d :: t
  | t => t

/-- What follows the seconds of a time of day, if there are any. -/
def afterSeconds? : Text → Option Text
  | 58 :: t => do
    let (second, t) ← digits? 2 t
    if second < 60 then some (afterFraction t) else none
  | t => some t

/-- What follows a time of day. -/
def afterTime? (t : Text) : Option Text := do
  let (hour, t) ← digits? 2 t
  let (minute, t) ← digits? 2 (← after? 58 t)
  if hour < 24 && minute < 60 then afterSeconds? t else none

/-- What follows the difference to universal time. -/
def afterZone? : Text → Option Text
  | 90 :: t => some t
  | b :: t => do
    if b ≠ 43 && b ≠ 45 then none
    else
      let (hour, t) ← digits? 2 t
      let (minute, t) ← digits? 2 (← after? 58 t)
      if hour ≤ 24 && minute ≤ 60 then some t else none
  | [] => none

/-- Whether a text is a day, a time of day, or both, then perhaps with a difference to universal
time. -/
def isDate (t : Text) : Bool :=
  match afterDay? t with
  | some [] => true
  | some (84 :: rest) => match afterTime? rest with
    | some [] => true
    | some zone => afterZone? zone = some []
    | none => false
  | some _ => false
  | none => afterTime? t = some []

/-- Whether a byte can stand in a date. -/
def isDateByte (b : UInt8) : Bool :=
  Text.isDigitByte b || [45, 58, 84, 116, 32, 46, 90, 122, 43].contains b

/-- Dates are written with upper-case letters and without spaces. -/
def dateByte (b : UInt8) : UInt8 :=
  if b = 122 then 90 else if b = 116 || b = 32 then 84 else b

/-- A date. -/
def date? (t : Text) : Option Toml :=
  let trimmed := (t.reverse.dropWhile (· = 32)).reverse
  if isDate (trimmed.map dateByte) then some .date else none

/-! ### Values that start like a number -/

/-- Whether a byte can stand in a float. -/
def isFloatByte (b : UInt8) : Bool :=
  Text.isDigitByte b || b = Text.underscore || b = 46 || b = 45 || b = 43 || isExponentMark b

/-- Whether a byte can stand in a decimal integer. -/
def isDecimalByte (b : UInt8) : Bool := Text.isDigitByte b || b = Text.underscore

/-- Take the bytes that satisfy a test and read them. -/
def readWhile (test : UInt8 → Bool) (read : Text → Option Toml) (t : Text) : Option (Toml × Text) :=
  (read (t.takeWhile test)).map fun v => (v, t.dropWhile test)

/-- A decimal number without sign, or a date.  `digits` are those at its front. -/
def readDecimal (sign t : Text) : Option (Toml × Text) :=
  let signed (read : Text → Option Toml) (body : Text) : Option Toml := read (sign ++ body)
  match t.dropWhile isDecimalByte with
  | b :: _ =>
    if b = 46 || isExponentMark b then readWhile isFloatByte (signed float?) t
    else if (b = 45 || b = 58) && sign.isEmpty && !(t.takeWhile isDecimalByte).contains 95 then
      readWhile isDateByte date? t
    else readWhile isDecimalByte (signed integer?) t
  | [] => readWhile isDecimalByte (signed integer?) t

/-- The two special floats. -/
def readSpecial : Text → Option (Toml × Text)
  | 105 :: 110 :: 102 :: t => some (.float, t)
  | 110 :: 97 :: 110 :: t => some (.float, t)
  | _ => none

/-- A number in another base than ten, after its mark. -/
def readBased (mark : UInt8) (base : Nat) (t : Text) : Option (Toml × Text) :=
  let isDigit (b : UInt8) : Bool := match Text.digitValue? b with
    | some d => d < base
    | none => false
  match t with
  | d :: _ =>
    if isDigit d then
      readWhile (fun b => isDigit b || b = Text.underscore)
        (fun body => integer? (48 :: mark :: body)) t
    else none
  | [] => none

/-- Whether a text starts with a digit. -/
def startsWithDigit (t : Text) : Bool := (t.head?.map Text.isDigitByte).getD false

/-- A number after its sign.  It is decimal, and may be one of the special floats. -/
def readSigned (sign : UInt8) (t : Text) : Option (Toml × Text) :=
  if startsWithDigit t then readDecimal [sign] t else readSpecial t

/-- An integer, a float or a date. -/
def readNumber : Text → Option (Toml × Text)
  | 45 :: t => readSigned 45 t
  | 43 :: t => readSigned 43 t
  | 48 :: 98 :: t => readBased 98 2 t
  | 48 :: 111 :: t => readBased 111 8 t
  | 48 :: 120 :: t => readBased 120 16 t
  | t => if startsWithDigit t then readDecimal [] t else readSpecial t

end Toml

end Foolscap
