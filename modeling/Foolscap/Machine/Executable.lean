import Foolscap.Machine.Opcode
import Foolscap.Table

/-!
# Executables

Code for the stack machine, with the assembly it came from.  The machine needs the code only; the
rest is for those who read its reports.
-/

namespace Foolscap

/-- Code for the stack machine: instruction numbers and operands in cells.  `sourceMap` gives for
each cell the number of the assembly line, counted from 1, that the cell belongs to. -/
structure Executable where
  code : Array Word := #[]
  sourceMap : Array Int := #[]
  lines : List Text := []
  labels : Table Nat := []
  deriving Inhabited

namespace Instruction

/-- An instruction as text, given the cell after its own.  An operand that the code is too short
for is left out. -/
def text (w : Word) (next : Option Word) : Text :=
  match next with
  | some x => if Opcode.hasOperandOf w then Opcode.nameOf w ++ " " ++ Text.ofWord x
      else Opcode.nameOf w
  | none => Opcode.nameOf w

/-- A line of a listing. -/
def row (addr : Nat) (t : Text) : Text :=
  Text.padLeft 4 (Text.ofNat addr) ++ "  " ++ t ++ [Text.newline]

/-- The listing of code that starts at an address. -/
def rows : Nat → List Word → Text
  | _, [] => []
  | a, [w] => row a (text w none)
  | a, w :: x :: rest =>
    row a (text w (some x)) ++
      if Opcode.hasOperandOf w then rows (a + 2) rest else rows (a + 1) (x :: rest)

end Instruction

namespace Executable

/-- The assembly line that the cell at an address belongs to; 0 outside of the code. -/
def line (p : Executable) (addr : Int) : Int :=
  if addr < 0 then 0 else p.sourceMap.getD addr.toNat 0

/-- The assembly as one text. -/
def text (p : Executable) : Text := Text.unlines p.lines

/-- The instruction that starts at an address, as text. -/
def instructionAt (p : Executable) (addr : Int) : Text :=
  if addr < 0 then "<out of code>"
  else match p.code[addr.toNat]? with
    | some w => Instruction.text w p.code[addr.toNat + 1]?
    | none => "<out of code>"

/-- All instructions with their addresses, one a line. -/
def listing (p : Executable) : Text := Instruction.rows 0 p.code.toList

end Executable

end Foolscap
