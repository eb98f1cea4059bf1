import Foolscap.Machine.Opcode

/-!
# The stack machine

A memory shared by a stack, which grows down from its top, and a heap, which grows up from its
bottom; six registers; and instructions that work on the top of the stack.

## Design Notes

The heap never reaches into the stack, so the heap pointer and the stack pointer are natural
numbers, while the other registers hold any word.  A fault leaves the machine as it is at that
moment: what was popped stays popped.
-/

namespace Foolscap

/-- Why a run can go wrong. -/
inductive Fault where
  | stackOverflow
  | stackUnderflow
  | heapExhausted
  | invalidOpcode
  | invalidAddress
  | invalidJump
  | divisionByZero
  deriving DecidableEq, Repr

namespace Fault

/-- The wording of a fault. -/
def message : Fault → Text
  | stackOverflow => "stack overflow: stack and heap collide"
  | stackUnderflow => "stack underflow"
  | heapExhausted => "heap exhausted: heap and stack collide"
  | invalidOpcode => "invalid opcode"
  | invalidAddress => "invalid memory address"
  | invalidJump => "jump outside of code"
  | divisionByZero => "division by zero"

end Fault

/-- The state of the machine.  `sp` is the address of the top of the stack, or the size of the
memory if the stack is empty; `hp` is the first free cell of the heap.  `current` is the address of
the last instruction begun, and `printed` holds the numbers printed so far, the latest first. -/
structure Machine where
  memory : Array Word
  ip : Word := 0
  sp : Nat := 0
  fp : Word := 0
  ra : Word := 0
  tm : Word := 0
  hp : Nat := 0
  current : Nat := 0
  printed : List Word := []
  deriving Inhabited

namespace Machine

/-- The size of the memory if none is asked for. -/
def defaultSize : Nat := 10000

/-- A machine that has not run yet. -/
def new (size : Int) : Machine :=
  { memory := Array.replicate (if size ≤ 0 then defaultSize else size.toNat) 0 }

/-- The largest memory, of `2 ^ 45` cells.  Of eight bytes each, they fill all that can be
addressed. -/
def maxSize : Int := 35184372088832

/-- A machine that has not run yet, unless no machine has that much memory. -/
def new? (size : Int) : Option Machine := if maxSize < size then none else some (new size)

/-- The machine at the start of a run: an empty memory and stack.  Only the address of the last
instruction begun is kept. -/
def reset (m : Machine) : Machine :=
  { memory := Array.replicate m.memory.size 0
    sp := m.memory.size
    fp := Int64.ofNat m.memory.size
    current := m.current }

/-- The content of a memory cell. -/
def load? (m : Machine) (addr : Word) : Option Word :=
  if addr < 0 then none else m.memory[addr.toNatClampNeg]?

/-- The top of the stack. -/
def top? (m : Machine) : Option Word := m.memory[m.sp]?

/-! ### Effects -/

/-- Something that happens to the machine and can go wrong. -/
abbrev Effect := EStateM Fault Machine

/-- Put a word on the stack. -/
def push (w : Word) : Effect Unit := fun m =>
  if m.sp ≤ m.hp then .error .stackOverflow m
  else .ok () { m with sp := m.sp - 1, memory := m.memory.setIfInBounds (m.sp - 1) w }

/-- Take the top of the stack. -/
def pop : Effect Word := fun m =>
  match m.memory[m.sp]? with
  | some w => .ok w { m with sp := m.sp + 1 }
  | none => .error .stackUnderflow m

/-- Take the top of the stack into a register, which is cleared if the stack is empty. -/
def popTo (set : Machine → Word → Machine) : Effect Unit := fun m =>
  match pop m with
  | .ok w m => .ok () (set m w)
  | .error f m => .error f (set m 0)

/-- Read a memory cell. -/
def load (addr : Word) : Effect Word := fun m =>
  match m.load? addr with
  | some w => .ok w m
  | none => .error .invalidAddress m

/-- Write a memory cell. -/
def store (addr w : Word) : Effect Unit := fun m =>
  if 0 ≤ addr && addr.toNatClampNeg < m.memory.size then
    .ok () { m with memory := m.memory.setIfInBounds addr.toNatClampNeg w }
  else .error .invalidAddress m

/-- Move the heap pointer, which may not reach into the stack. -/
def setHeap (addr : Word) : Effect Unit := fun m =>
  if addr < 0 then .error .invalidAddress m
  else if m.sp < addr.toNatClampNeg then .error .heapExhausted m
  else .ok () { m with hp := addr.toNatClampNeg }

/-- Print the top of the stack and leave it there. -/
def print : Effect Unit := fun m =>
  match m.top? with
  | some w => .ok () { m with printed := w :: m.printed }
  | none => .error .stackUnderflow m

/-- Go on at an address. -/
def jump (addr : Word) : Effect Unit := fun m => .ok () { m with ip := addr }

/-- Read the operand of the current instruction; behind the end of the code it counts as -1. -/
def operand (code : Array Word) : Effect Word := fun m =>
  match code[m.ip.toNatClampNeg]? with
  | some w => .ok w { m with ip := m.ip + 1 }
  | none => .ok (-1) m

/-- The result of an arithmetic instruction. -/
def arithmetic (f : Word → Word → Word) : Effect Unit := do
  let v ← pop
  let u ← pop
  push (f u v)

/-- Divide, toward zero. -/
def divide : Effect Unit := do
  let v ← pop
  let u ← pop
  if v = 0 then throw .divisionByZero else push (u / v)

/-- Branch if the two values on top of the stack satisfy a test. -/
def branchIf (code : Array Word) (test : Word → Word → Bool) : Effect Unit := do
  let target ← operand code
  let v ← pop
  let u ← pop
  if test u v then jump target

/-- The effect of an instruction. -/
def execute (code : Array Word) : Opcode → Effect Unit
  | .push => do push (← operand code)
  | .pop => do let _ ← pop
  | .add => arithmetic (· + ·)
  | .sub => arithmetic (· - ·)
  | .mult => arithmetic (· * ·)
  | .div => divide
  | .sw => do
    let addr ← pop
    let w ← pop
    store addr w
  | .lw => do
    let addr ← pop
    push (← load addr)
  | .b => do jump (← operand code)
  | .beq => branchIf code fun u v => u == v
  | .bleq => branchIf code fun u v => u ≤ v
  | .js => do
    let addr ← pop
    modify fun m => { m with ra := m.ip, ip := addr }
  | .lra => do push (← get).ra
  | .sra => popTo fun m w => { m with ra := w }
  | .ltm => do push (← get).tm
  | .stm => popTo fun m w => { m with tm := w }
  | .lfp => do push (← get).fp
  | .sfp => popTo fun m w => { m with fp := w }
  | .cfp => modify fun m => { m with fp := Int64.ofNat m.sp }
  | .lhp => do push (Int64.ofNat (← get).hp)
  | .shp => do setHeap (← pop)
  | .print => print
  | .halt => pure ()

/-! ### Runs -/

/-- What a step leads to. -/
inductive Outcome where
  | running (m : Machine)
  | halted (m : Machine)
  | failed (f : Fault) (m : Machine)

/-- The cell that the instruction pointer addresses. -/
def fetch? (code : Array Word) (ip : Word) : Option Word :=
  if ip < 0 then none else code[ip.toNatClampNeg]?

/-- One step: fetch an instruction and execute it. -/
def step (code : Array Word) (m : Machine) : Outcome :=
  match fetch? code m.ip with
  | none => .failed .invalidJump m
  | some w =>
    let m := { m with current := m.ip.toNatClampNeg, ip := m.ip + 1 }
    match Opcode.ofWord? w with
    | none => .failed .invalidOpcode m
    | some .halt => .halted m
    | some o => match execute code o m with
      | .ok _ m => .running m
      | .error f m => .failed f m

/-- At most so many steps, up to the first that does not lead on. -/
def run (code : Array Word) : Nat → Machine → Outcome
  | 0, m => .running m
  | limit + 1, m => match step code m with
    | .running m => run code limit m
    | stop => stop

@[simp] theorem run_zero (code : Array Word) (m : Machine) : run code 0 m = .running m := rfl

theorem run_succ (code : Array Word) (limit : Nat) (m : Machine) :
    run code (limit + 1) m = match step code m with
      | .running m => run code limit m
      | stop => stop := rfl

/-- A run can be cut in two: what is still running after the first part goes on with the second. -/
theorem run_add (code : Array Word) (a b : Nat) (m : Machine) :
    run code (a + b) m = match run code a m with
      | .running m => run code b m
      | stop => stop := by
  induction a generalizing m with
  | zero => simp
  | succ a ih =>
    rw [Nat.succ_add, run_succ, run_succ]
    cases step code m with
    | running m => exact ih m
    | halted m => rfl
    | failed f m => rfl

end Machine

end Foolscap
