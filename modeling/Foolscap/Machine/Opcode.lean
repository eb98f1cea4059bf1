import Foolscap.Text.Number

/-!
# Instructions of the stack machine

Each instruction has a number, a mnemonic, possibly an operand, and a fixed effect on the height of
the stack.  In code an instruction is its number, followed by its operand if it has one.
-/

namespace Foolscap

/-- An instruction of the stack machine. -/
inductive Opcode where
  | push | pop | add | sub | mult | div
  | sw | lw
  | b | beq | bleq | js
  | lra | sra | ltm | stm | lfp | sfp | cfp | lhp | shp
  | print | halt
  deriving DecidableEq, Repr, Inhabited

namespace Opcode

/-- All instructions. -/
def all : List Opcode :=
  [push, pop, add, sub, mult, div, sw, lw, b, beq, bleq, js,
   lra, sra, ltm, stm, lfp, sfp, cfp, lhp, shp, print, halt]

/-- The number of an instruction. -/
def code : Opcode → Nat
  | push => 0x01 | pop => 0x02 | add => 0x03 | sub => 0x04 | mult => 0x05 | div => 0x06
  | sw => 0x10 | lw => 0x11
  | b => 0x20 | beq => 0x21 | bleq => 0x22 | js => 0x23
  | lra => 0x30 | sra => 0x31 | ltm => 0x32 | stm => 0x33 | lfp => 0x34 | sfp => 0x35
  | cfp => 0x36 | lhp => 0x37 | shp => 0x38
  | print => 0x40 | halt => 0x41

/-- The mnemonic of an instruction. -/
def spelling : Opcode → String
  | push => "push" | pop => "pop" | add => "add" | sub => "sub" | mult => "mult" | div => "div"
  | sw => "sw" | lw => "lw"
  | b => "b" | beq => "beq" | bleq => "bleq" | js => "js"
  | lra => "lra" | sra => "sra" | ltm => "ltm" | stm => "stm" | lfp => "lfp" | sfp => "sfp"
  | cfp => "cfp" | lhp => "lhp" | shp => "shp"
  | print => "print" | halt => "halt"

/-- The mnemonic of an instruction, as text. -/
def mnemonic (o : Opcode) : Text := o.spelling

/-- Whether an instruction is followed by an operand. -/
def hasOperand : Opcode → Bool
  | push | b | beq | bleq => true
  | _ => false

/-- By how much an instruction lengthens the stack. -/
def stackEffect : Opcode → Int
  | push | lra | ltm | lfp | lhp => 1
  | pop | add | sub | mult | div | js | sra | stm | sfp | shp => -1
  | sw | beq | bleq => -2
  | lw | b | cfp | print | halt => 0

/-- The instructions by number. -/
def byCode : Array (Option Opcode) :=
  ((List.range 0x42).map fun n => all.find? fun o => o.code == n).toArray

/-- The instruction with a number. -/
def ofWord? (w : Word) : Option Opcode :=
  if w < 0 then none else (byCode[w.toNatClampNeg]?).join

/-- The instruction with a mnemonic. -/
def ofMnemonic? (t : Text) : Option Opcode := all.find? fun o => o.mnemonic == t

/-- An instruction's number denotes it. -/
theorem ofWord?_code (o : Opcode) : ofWord? (Int64.ofNat o.code) = some o := by
  cases o <;> decide

/-- An instruction's mnemonic denotes it. -/
theorem ofMnemonic?_mnemonic (o : Opcode) : ofMnemonic? o.mnemonic = some o := by
  cases o <;> decide

/-- What is shown for a number that is no instruction: the number in hexadecimal, two digits wide
where that is not negative. -/
def unknownName (w : Word) : Text :=
  "UNKNOWN_" ++
    match w.toInt with
    | .ofNat n => Text.hexUpper 2 n
    | .negSucc n => 45 :: Text.hexUpper 1 (n + 1)

/-- The mnemonic of a number, or what is shown for a number that is no instruction. -/
def nameOf (w : Word) : Text :=
  match ofWord? w with
  | some o => o.mnemonic
  | none => unknownName w

/-- The stack effect of a number; none for a number that is no instruction. -/
def stackEffectOf (w : Word) : Int :=
  match ofWord? w with
  | some o => o.stackEffect
  | none => 0

/-- Whether a number is followed by an operand. -/
def hasOperandOf (w : Word) : Bool :=
  match ofWord? w with
  | some o => o.hasOperand
  | none => false

end Opcode

end Foolscap
