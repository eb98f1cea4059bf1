import Foolscap.Machine.Run

/-!
# The bare machine

The stack machine without any safety of its own.  All its registers are words, which wrap around,
and it indexes the memory, the code and the source map without looking: an index outside of the
array makes it crash.  What keeps it from crashing are the comparisons in front of each access, and
nothing else.

## Design Notes

The machine of the library has natural numbers for the two pointers of the memory and total access
to arrays, so that nothing in it can crash by construction.  The bare machine says what these types
hide; that it never crashes, and does what the other one does, is proved elsewhere.
-/

namespace Foolscap

/-- The state of a bare machine. -/
structure Bare where
  memory : Array Word
  ip : Word
  sp : Word
  fp : Word
  ra : Word
  tm : Word
  hp : Word
  current : Word
  printed : List Word

namespace Bare

/-- The length of an array, as a register holds it. -/
def length {α : Type} (a : Array α) : Word := Int64.ofNat a.size

/-- The element of an array at a word, which may be any. -/
def index? {α : Type} (a : Array α) (i : Word) : Option α :=
  if i < 0 then none else a[i.toNatClampNeg]?

/-! ### Effects -/

/-- What ends an effect before its time: a fault that is reported, or an index outside of an
array. -/
inductive Trap where
  | fault (f : Fault)
  | outOfRange

/-- Something that happens to a bare machine. -/
abbrev Effect := EStateM Trap Bare

/-- Read an array. -/
def read {α : Type} (a : Array α) (i : Word) : Effect α :=
  match index? a i with
  | some x => pure x
  | none => throw .outOfRange

/-- Write a memory cell. -/
def write (i w : Word) : Effect Unit := fun s =>
  if 0 ≤ i && i.toNatClampNeg < s.memory.size then
    .ok () { s with memory := s.memory.setIfInBounds i.toNatClampNeg w }
  else .error .outOfRange s

/-- Put a word on the stack. -/
def push (w : Word) : Effect Unit := do
  let s ← get
  if s.sp - 1 < s.hp then throw (.fault .stackOverflow)
  else
    set { s with sp := s.sp - 1 }
    write (s.sp - 1) w

/-- Take the top of the stack. -/
def pop : Effect Word := do
  let s ← get
  if length s.memory ≤ s.sp then throw (.fault .stackUnderflow)
  else
    let w ← read s.memory s.sp
    set { s with sp := s.sp + 1 }
    return w

/-- Take the top of the stack into a register, which is cleared if the stack is empty. -/
def popTo (put : Bare → Word → Bare) : Effect Unit := fun s =>
  match pop s with
  | .ok w s => .ok () (put s w)
  | .error (.fault f) s => .error (.fault f) (put s 0)
  | .error .outOfRange s => .error .outOfRange s

/-- Read a memory cell at a computed address. -/
def load (addr : Word) : Effect Word := do
  let s ← get
  if addr < 0 ∨ length s.memory ≤ addr then throw (.fault .invalidAddress)
  else read s.memory addr

/-- Write a memory cell at a computed address. -/
def store (addr w : Word) : Effect Unit := do
  let s ← get
  if addr < 0 ∨ length s.memory ≤ addr then throw (.fault .invalidAddress)
  else write addr w

/-- Move the heap pointer. -/
def setHeap (addr : Word) : Effect Unit := do
  let s ← get
  if addr < 0 then throw (.fault .invalidAddress)
  else if s.sp < addr then throw (.fault .heapExhausted)
  else set { s with hp := addr }

/-- Print the top of the stack and leave it there. -/
def print : Effect Unit := do
  let s ← get
  if length s.memory ≤ s.sp then throw (.fault .stackUnderflow)
  else
    let w ← read s.memory s.sp
    set { s with printed := w :: s.printed }

/-- Go on at an address. -/
def jump (addr : Word) : Effect Unit := modify fun s => { s with ip := addr }

/-- Read the operand of the current instruction.  Only the end of the code is looked at. -/
def operand (code : Array Word) : Effect Word := do
  let s ← get
  if length code ≤ s.ip then return -1
  else
    let w ← read code s.ip
    set { s with ip := s.ip + 1 }
    return w

/-- The result of an arithmetic instruction. -/
def arithmetic (f : Word → Word → Word) : Effect Unit := do
  let v ← pop
  let u ← pop
  push (f u v)

/-- Divide, toward zero. -/
def divide : Effect Unit := do
  let v ← pop
  let u ← pop
  if v = 0 then throw (.fault .divisionByZero) else push (u / v)

/-- Branch if the two values on top of the stack satisfy a test. -/
def branchIf (code : Array Word) (test : Word → Word → Bool) : Effect Unit := do
  let target ← operand code
  let v ← pop
  let u ← pop
  if test u v then jump target

/-- The effect of an instruction. -/
def execute (code : Array Word) : Opcode → Effect Unit
  | .push => do push (← operand code)
  | .pop => do let _ ← pop
  | .add => arithmetic (· + ·)
  | .sub => arithmetic (· - ·)
  | .mult => arithmetic (· * ·)
  | .div => divide
  | .sw => do
    let addr ← pop
    let w ← pop
    store addr w
  | .lw => do
    let addr ← pop
    push (← load addr)
  | .b => do jump (← operand code)
  | .beq => branchIf code fun u v => u == v
  | .bleq => branchIf code fun u v => u ≤ v
  | .js => do
    let addr ← pop
    modify fun s => { s with ra := s.ip, ip := addr }
  | .lra => do push (← get).ra
  | .sra => popTo fun s w => { s with ra := w }
  | .ltm => do push (← get).tm
  | .stm => popTo fun s w => { s with tm := w }
  | .lfp => do push (← get).fp
  | .sfp => popTo fun s w => { s with fp := w }
  | .cfp => modify fun s => { s with fp := s.sp }
  | .lhp => do push (← get).hp
  | .shp => do setHeap (← pop)
  | .print => print
  | .halt => pure ()

/-! ### Steps -/

/-- What a step leads to, if it does not crash. -/
inductive Outcome where
  | running (s : Bare)
  | halted (s : Bare)
  | failed (f : Fault) (s : Bare)

/-- The machine that a step leads to. -/
def Outcome.machine : Outcome → Bare
  | .running s => s
  | .halted s => s
  | .failed _ s => s

/-- Whether the instruction pointer is outside of the code. -/
def isOutside (code : Array Word) (s : Bare) : Bool := s.ip < 0 || length code ≤ s.ip

/-- The outcome of a step, given the effect of its instruction. -/
def settle : EStateM.Result Trap Bare Unit → Option Outcome
  | .ok _ s => some (.running s)
  | .error (.fault f) s => some (.failed f s)
  | .error .outOfRange _ => none

/-- One step: fetch an instruction and execute it. -/
def step (code : Array Word) (s : Bare) : Option Outcome :=
  if s.isOutside code then some (.failed .invalidJump s)
  else do
    let w ← index? code s.ip
    let s := { s with current := s.ip, ip := s.ip + 1 }
    match Opcode.ofWord? w with
    | none => some (.failed .invalidOpcode s)
    | some .halt => some (.halted s)
    | some o => settle (execute code o s)

/-! ### Runs -/

/-- The instruction that starts at an address, as text. -/
def instructionAt (p : Executable) (addr : Word) : Option Text :=
  if addr < 0 ∨ length p.code ≤ addr then some "<out of code>"
  else do
    let w ← index? p.code addr
    if Opcode.hasOperandOf w && addr + 1 < length p.code then
      let x ← index? p.code (addr + 1)
      return Opcode.nameOf w ++ " " ++ Text.ofWord x
    else return Opcode.nameOf w

/-- The assembly line that the cell at an address belongs to; 0 outside of the code. -/
def line (p : Executable) (addr : Word) : Option Int :=
  if addr < 0 ∨ length p.sourceMap ≤ addr then some 0 else index? p.sourceMap addr

/-- The top of the stack, as a trace shows it. -/
def shownTop (s : Bare) : Option Text :=
  if s.sp < length s.memory then (index? s.memory s.sp).map Text.ofWord else some "-"

/-- The instruction that the machine is about to execute, its effect on the height of the stack, and
the registers. -/
def traceLine (p : Executable) (s : Bare) : Option Text := do
  let top ← s.shownTop
  let instruction ← instructionAt p s.ip
  let cell ← index? p.code s.ip
  return Text.padLeft 5 (Text.ofWord s.ip) ++ "  " ++ Text.padRight 16 instruction ++
    " " ++ Text.signed (Opcode.stackEffectOf cell) ++ "  sp=" ++ Text.ofWord s.sp ++
    " fp=" ++ Text.ofWord s.fp ++ " hp=" ++ Text.ofWord s.hp ++ " ra=" ++ Text.ofWord s.ra ++
    " tm=" ++ Text.ofWord s.tm ++ " top=" ++ top

/-- One more line of a trace, if one is wanted and the machine is about to execute an
instruction. -/
def traceStep (p : Executable) (tracing : Bool) (trace : List Text) (s : Bare) :
    Option (List Text) :=
  if !tracing || s.isOutside p.code then some trace else (s.traceLine p).map (· :: trace)

/-- At most so many steps, with a trace line for each if they are wanted, the latest first. -/
def steps (p : Executable) (tracing : Bool) :
    Nat → List Text → Bare → Option (List Text × Outcome)
  | 0, trace, s => some (trace, .running s)
  | limit + 1, trace, s => do
    let trace ← s.traceStep p tracing trace
    match ← s.step p.code with
    | .running s => steps p tracing limit trace s
    | stop => some (trace, stop)

/-- The error that a fault is reported as. -/
def runtimeError (p : Executable) (s : Bare) (f : Fault) : Option RuntimeError := do
  let line ← line p s.current
  let instruction ← instructionAt p s.current
  return ⟨s.current.toNatClampNeg, line, instruction, f⟩

/-- The machine at the start of a run. -/
def reset (s : Bare) : Bare :=
  { memory := Array.replicate s.memory.size 0
    ip := 0
    sp := length s.memory
    fp := length s.memory
    ra := 0
    tm := 0
    hp := 0
    current := s.current
    printed := [] }

/-- How a run of a bare machine ended: the trace, the machine, and the error unless the program
halted. -/
structure Stop where
  trace : List Text
  machine : Bare
  error : Option RuntimeError

/-- The machine with numbers for its pointers. -/
def machine (s : Bare) : Machine :=
  { memory := s.memory
    ip := s.ip
    sp := s.sp.toNatClampNeg
    fp := s.fp
    ra := s.ra
    tm := s.tm
    hp := s.hp.toNatClampNeg
    current := s.current.toNatClampNeg
    printed := s.printed }

/-- The end of a run with numbers for the pointers, and with the messages that belong to it. -/
def Stop.told (p : Executable) (size : Nat) (stop : Bare.Stop) : Logged Foolscap.Stop :=
  let seen : Foolscap.Stop := ⟨stop.machine.machine, stop.error⟩
  ⟨seen, p.runLog size stop.trace seen⟩

/-- How a run ended, if it did.  A fault is reported, which reads the code and the source map. -/
def stop? (p : Executable) (trace : List Text) : Outcome → Option (Option Stop)
  | .running _ => some none
  | .halted s => some (some ⟨trace, s, none⟩)
  | .failed f s => do
    let e ← runtimeError p s f
    return some ⟨trace, s, some e⟩

/-- Run a program from address 0 on a machine whose memory and registers are reset.  There is no
result if the machine crashes, and the result is that there is no end yet if the program does not
end within the limit. -/
def run (p : Executable) (tracing : Bool) (limit : Nat) (s : Bare) : Option (Option Stop) := do
  let (trace, outcome) ← steps p tracing limit [] s.reset
  stop? p trace.reverse outcome

end Bare

end Foolscap
