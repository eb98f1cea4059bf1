import Foolscap.Machine.Opcode

/-!
# Assembly

The code of a program as lines of assembly: instructions, and labels that mark places.
-/

namespace Foolscap

/-- The name of a place in the code.  Branch targets and routines are numbered apart. -/
inductive Label where
  | branch (n : Nat)
  | routine (n : Nat)
  deriving DecidableEq, Repr

namespace Label

/-- The label as it is written. -/
def text : Label → Text
  | branch n => "label" ++ Text.ofNat n
  | routine n => "function" ++ Text.ofNat n

end Label

/-- The instructions that branch to a label. -/
inductive Branch where
  | always | equal | lessEqual
  deriving DecidableEq, Repr

namespace Branch

/-- The instruction of a branch. -/
def opcode : Branch → Opcode
  | always => .b
  | equal => .beq
  | lessEqual => .bleq

end Branch

/-- The content of a slot of a dispatch table: the method's routine, or nothing where no method was
put. -/
abbrev Slot := Option Label

namespace Slot

/-- The slot as it is written; an empty one has an empty name. -/
def text : Slot → Text
  | some l => l.text
  | none => []

end Slot

/-- A line of assembly. -/
inductive Line where
  | op (o : Opcode)
  | push (n : Int)
  | pushLabel (s : Slot)
  | branch (b : Branch) (l : Label)
  | mark (l : Label)
  deriving DecidableEq, Repr

namespace Line

/-- The line as it is written. -/
def text : Line → Text
  | op o => o.mnemonic
  | push n => "push " ++ Text.ofInt n
  | pushLabel s => "push " ++ Slot.text s
  | branch b l => b.opcode.mnemonic ++ " " ++ l.text
  | mark l => l.text ++ ":"

/-- Lines of assembly as one text. -/
def textOf (ls : List Line) : Text := Text.unlines (ls.map text)

end Line

end Foolscap
