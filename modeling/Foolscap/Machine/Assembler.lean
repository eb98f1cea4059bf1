import Foolscap.Log
import Foolscap.Machine.Executable
import Foolscap.Text.Blank
import Foolscap.Text.Quoted

/-!
# Assembling

Assembly text as code.  Each line holds one instruction, one label, or nothing.  A label stands for
the address of the next instruction and may be used before its line.
-/

namespace Foolscap

/-- What can be wrong with a line of assembly. -/
inductive AssemblyFault where
  | invalidLabel (line : Text)
  | labelTaken (name : Text)
  | unknownInstruction (word : Text)
  | noOperand (o : Opcode)
  | oneOperand (o : Opcode)
  | needsLabel (o : Opcode) (operand : Text)
  | undefinedLabel (name : Text)
  deriving DecidableEq, Repr

namespace AssemblyFault

/-- The wording of a fault. -/
def message : AssemblyFault → Text
  | invalidLabel line => "invalid label " ++ Text.quoted line
  | labelTaken name => "label " ++ name ++ " already defined"
  | unknownInstruction word => "unknown instruction " ++ Text.quoted word
  | noOperand o => o.mnemonic ++ " takes no operand"
  | oneOperand o => o.mnemonic ++ " takes one operand"
  | needsLabel o operand => o.mnemonic ++ " needs a label, got " ++ operand
  | undefinedLabel name => "undefined label " ++ name

end AssemblyFault

/-- A fault and the number of its line, counted from 1. -/
structure AssemblyError where
  line : Nat
  fault : AssemblyFault
  deriving DecidableEq, Repr

namespace AssemblyError

/-- The wording of an error. -/
def message (e : AssemblyError) : Text :=
  "asm line " ++ Text.ofNat e.line ++ ": " ++ e.fault.message

end AssemblyError

/-- The content of a cell before labels are resolved. -/
inductive Operand where
  | number (w : Word)
  | label (name : Text)
  deriving DecidableEq, Repr

namespace Operand

/-- An operand as it is read: what is not a number is a label. -/
def read (t : Text) : Operand :=
  match Text.toWord? t with
  | some w => number w
  | none => label t

end Operand

/-- What a line of assembly says. -/
inductive Statement where
  | blank
  | mark (name : Text)
  | plain (o : Opcode)
  | withOperand (o : Opcode) (arg : Operand)
  deriving DecidableEq, Repr

namespace Statement

/-- The statement of a line that ends in a colon. -/
def readMark (line : Text) : Except AssemblyFault Statement :=
  let name := line.dropLast
  if name.isEmpty || name.contains 32 || name.contains 9 then .error (.invalidLabel line)
  else .ok (mark name)

/-- The statement that an instruction and the words after it make.  Only `push` takes a number;
branches need a label. -/
def readInstruction (o : Opcode) (args : List Text) : Except AssemblyFault Statement :=
  if o.hasOperand then
    match args with
    | [arg] => match Operand.read arg with
      | .number w => if o = .push then .ok (withOperand o (.number w))
          else .error (.needsLabel o arg)
      | .label name => .ok (withOperand o (.label name))
    | _ => .error (.oneOperand o)
  else if args.isEmpty then .ok (plain o)
  else .error (.noOperand o)

/-- The statement of a line. -/
def read (raw : Text) : Except AssemblyFault Statement :=
  let line := raw.trim
  if line.isEmpty then .ok blank
  else if line.getLast? = some 58 then readMark line
  else match line.words with
    | [] => .ok blank
    | word :: args => match Opcode.ofMnemonic? word with
      | some o => readInstruction o args
      | none => .error (.unknownInstruction word)

/-- The cells that a statement fills. -/
def cells : Statement → List Operand
  | blank | mark _ => []
  | plain o => [.number (Int64.ofNat o.code)]
  | withOperand o arg => [.number (Int64.ofNat o.code), arg]

end Statement

namespace Assembler

/-- Cells with the numbers of their lines, and labels with their addresses. -/
structure Layout where
  cells : Array (Nat × Operand) := #[]
  labels : Table Nat := []

/-- Take in one more statement. -/
def Layout.add (l : Layout) (number : Nat) (s : Statement) : Except AssemblyError Layout :=
  match s with
  | .mark name =>
    if l.labels.has name then .error ⟨number, .labelTaken name⟩
    else .ok { l with labels := l.labels.put name l.cells.size }
  | s => .ok { l with cells := l.cells ++ (s.cells.map fun c => (number, c)).toArray }

/-- Lay out lines, the first of which has a given number. -/
def layout : Layout → Nat → List Text → Except AssemblyError Layout
  | l, _, [] => .ok l
  | l, number, raw :: rest =>
    match Statement.read raw with
    | .error fault => .error ⟨number, fault⟩
    | .ok s => match l.add number s with
      | .error e => .error e
      | .ok l => layout l (number + 1) rest

/-- The value of a cell once all labels are known. -/
def resolve (labels : Table Nat) : Nat × Operand → Except AssemblyError Word
  | (_, .number w) => .ok w
  | (line, .label name) => match labels.get? name with
    | some addr => .ok (Int64.ofNat addr)
    | none => .error ⟨line, .undefinedLabel name⟩

/-- The lines of an assembly text.  A final line end does not start another line. -/
def split : Text → List Text
  | [] => []
  | t => if t.getLast? = some Text.newline then Text.lines t.dropLast else Text.lines t

end Assembler

namespace Executable

/-- The code of lines of assembly. -/
def ofLines (lines : List Text) : Except AssemblyError Executable := do
  let l ← Assembler.layout {} 1 lines
  let code ← l.cells.mapM (Assembler.resolve l.labels)
  return { code, sourceMap := l.cells.map fun c => (c.1 : Int), lines, labels := l.labels }

/-- The code of an assembly text. -/
def assemble (text : Text) : Except AssemblyError Executable := ofLines (Assembler.split text)

/-- The message about finished assembling. -/
def assembledLog (p : Executable) : LogLine :=
  ⟨.debug, .machine, "assembled " ++ Text.ofNat p.lines.length ++ " lines into " ++
    Text.ofNat p.code.size ++ " cells"⟩

end Executable

end Foolscap
