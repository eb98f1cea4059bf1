import Foolscap.Text.Numeral
import Foolscap.Text.Quoted

/-!
# Flags

The options in front of the arguments of a command.  A flag is written `-name` or `--name`; its
value follows after an equals sign or, unless it is a switch, as the next argument.
-/

namespace Foolscap

/-- How the value of a flag changes the settings. -/
inductive FlagSetter (σ : Type) where
  | switch (set : Bool → σ → σ)
  | text (set : Text → σ → σ)
  | number (set : Int → σ → σ)

/-- A flag, with the value that it has if it is not given, unless that value is empty. -/
structure Flag (σ : Type) where
  name : Text
  help : Text
  setter : FlagSetter σ
  initial : Text := []

/-- Why arguments are refused.  Asking for help is one reason. -/
inductive FlagError where
  | help
  | malformed (arg : Text)
  | unknown (name : Text)
  | notSwitch (value name : Text)
  | noValue (name : Text)
  | notNumber (value name : Text) (e : NumeralError)
  deriving DecidableEq, Repr

namespace FlagError

/-- The wording of an error; there is none for help. -/
def message? : FlagError → Option Text
  | help => none
  | malformed arg => some ("bad flag syntax: " ++ arg)
  | unknown name => some ("flag provided but not defined: -" ++ name)
  | notSwitch value name =>
    some ("invalid boolean value " ++ Text.quoted value ++ " for -" ++ name ++ ": " ++
      NumeralError.malformed.message)
  | noValue name => some ("flag needs an argument: -" ++ name)
  | notNumber value name e =>
    some ("invalid value " ++ Text.quoted value ++ " for flag -" ++ name ++ ": " ++ e.message)

end FlagError

/-- What an argument is: a plain one, the mark after which no flag follows, a flag with perhaps a
value, or nothing that makes sense. -/
inductive Argument where
  | plain
  | stop
  | flag (name : Text) (value : Option Text)
  | malformed
  deriving DecidableEq, Repr

namespace Argument

/-- The hyphen. -/
abbrev hyphen : UInt8 := 45

/-- The equals sign. -/
abbrev equals : UInt8 := 61

/-- What the text after the hyphens of a flag is. -/
def readName : Text → Argument
  | [] => .malformed
  | b :: t =>
    if b = hyphen || b = equals then .malformed
    else match t.dropWhile (· ≠ equals) with
      | [] => .flag (b :: t) none
      | _ :: value => .flag (b :: t.takeWhile (· ≠ equals)) (some value)

/-- What an argument is. -/
def read : Text → Argument
  | a :: b :: t =>
    if a ≠ hyphen then .plain
    else if b = hyphen then
      if t.isEmpty then .stop else readName t
    else readName (b :: t)
  | _ => .plain

end Argument

namespace Flag

variable {σ : Type}

/-- The state of a switch that a text stands for. -/
def readSwitch (t : Text) : Option Bool :=
  let yes : List Text := ["1", "t", "T", "TRUE", "true", "True"]
  let no : List Text := ["0", "f", "F", "FALSE", "false", "False"]
  if yes.contains t then some true
  else if no.contains t then some false
  else none

/-- Whether a flag is a switch. -/
def isSwitch (f : Flag σ) : Bool :=
  match f.setter with
  | .switch _ => true
  | _ => false

/-- The settings after a flag with a value. -/
def apply (f : Flag σ) (value : Text) (s : σ) : Except FlagError σ :=
  match f.setter with
  | .switch set => match readSwitch value with
    | some b => .ok (set b s)
    | none => .error (.notSwitch value f.name)
  | .text set => .ok (set value s)
  | .number set => match Text.readLiteral value with
    | .ok n => .ok (set n s)
    | .error e => .error (.notNumber value f.name e)

/-- The flag with a name. -/
def byName (flags : List (Flag σ)) (name : Text) : Except FlagError (Flag σ) :=
  match flags.find? fun f => f.name = name with
  | some f => .ok f
  | none =>
    if name = Text.ofString "help" || name = Text.ofString "h" then .error .help
    else .error (.unknown name)

/-- The settings that arguments make, and the arguments that are left. -/
def parse (flags : List (Flag σ)) (s : σ) : List Text → Except FlagError (σ × List Text)
  | [] => .ok (s, [])
  | arg :: rest =>
    match Argument.read arg with
    | .plain => .ok (s, arg :: rest)
    | .stop => .ok (s, rest)
    | .malformed => .error (.malformed arg)
    | .flag name (some value) => do
      let f ← byName flags name
      let s ← f.apply value s
      parse flags s rest
    | .flag name none => do
      let f ← byName flags name
      if f.isSwitch then
        let s ← f.apply "true" s
        parse flags s rest
      else match rest with
        | [] => .error (.noValue name)
        | value :: rest => do
          let s ← f.apply value s
          parse flags s rest

/-- The word for the values of a flag. -/
def valueWord (f : Flag σ) : Text :=
  match f.setter with
  | .switch _ => []
  | .text _ => " string"
  | .number _ => " int"

/-- A flag as a usage text shows it.  The text for a switch of one letter stands beside it. -/
def display (f : Flag σ) : Text :=
  let head : Text := "  -" ++ f.name ++ f.valueWord
  let initial : Text :=
    if f.initial.isEmpty then [] else " (default " ++ Text.quoted f.initial ++ ")"
  let gap : Text := if head.length ≤ 4 then "\t" else "\n    \t"
  head ++ gap ++ f.help ++ initial ++ [Text.newline]

/-- All flags as a usage text shows them. -/
def listing (flags : List (Flag σ)) : Text := flags.flatMap display

end Flag

end Foolscap
