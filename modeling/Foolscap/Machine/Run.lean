import Foolscap.Log
import Foolscap.Machine
import Foolscap.Machine.Executable

/-!
# Running executables

Runs of whole programs, with reports of faults and with traces.
-/

namespace Foolscap

/-- A fault, the address and the text of the instruction that raised it, and the assembly line that
it came from, or 0. -/
structure RuntimeError where
  addr : Nat
  line : Int
  instruction : Text
  fault : Fault
  deriving DecidableEq, Repr

namespace RuntimeError

/-- The wording of a runtime error. -/
def message (e : RuntimeError) : Text :=
  let place : Text :=
    if 0 < e.line then " (asm line " ++ Text.ofInt e.line ++ ": " ++ e.instruction ++ ")" else []
  "runtime error at " ++ Text.ofNat e.addr ++ place ++ ": " ++ e.fault.message

end RuntimeError

namespace Machine

/-- The numbers printed, one a line. -/
def output (m : Machine) : Text := Text.unlines (m.printed.reverse.map Text.ofWord)

/-- The instruction that the machine is about to execute, its effect on the height of the stack, and
the registers. -/
def traceLine (p : Executable) (m : Machine) : Text :=
  let cell := (fetch? p.code m.ip).getD 0
  let top : Text := match m.top? with
    | some w => Text.ofWord w
    | none => "-"
  Text.padLeft 5 (Text.ofWord m.ip) ++ "  " ++ Text.padRight 16 (p.instructionAt m.ip.toInt) ++
    " " ++ Text.signed (Opcode.stackEffectOf cell) ++ "  sp=" ++ Text.ofNat m.sp ++
    " fp=" ++ Text.ofWord m.fp ++ " hp=" ++ Text.ofNat m.hp ++ " ra=" ++ Text.ofWord m.ra ++
    " tm=" ++ Text.ofWord m.tm ++ " top=" ++ top

end Machine

/-- How a run ended: the machine, and the error unless the program halted. -/
structure Stop where
  machine : Machine
  error : Option RuntimeError

namespace Executable

/-- The error that a fault of a machine is reported as. -/
def runtimeError (p : Executable) (m : Machine) (f : Fault) : RuntimeError :=
  ⟨m.current, p.line m.current, p.instructionAt m.current, f⟩

/-- A run that keeps a trace line for every instruction, the latest first. -/
def traced (p : Executable) : Nat → List Text → Machine → List Text × Machine.Outcome
  | 0, trace, m => (trace, .running m)
  | limit + 1, trace, m =>
    let trace := if (Machine.fetch? p.code m.ip).isSome then m.traceLine p :: trace else trace
    match m.step p.code with
    | .running m => traced p limit trace m
    | stop => (trace, stop)

/-- Tracing does not change a run. -/
theorem traced_outcome (p : Executable) (limit : Nat) (trace : List Text) (m : Machine) :
    (p.traced limit trace m).2 = m.run p.code limit := by
  induction limit generalizing trace m with
  | zero => rfl
  | succ limit ih =>
    rw [traced, Machine.run_succ]
    cases m.step p.code with
    | running m => exact ih _ m
    | halted m => rfl
    | failed f m => rfl

/-- A message of the machine. -/
def logLine (severity : Severity) (t : Text) : LogLine := ⟨severity, .machine, t⟩

/-- The messages of a run: its start, its trace, and how it ended. -/
def runLog (p : Executable) (size : Nat) (trace : List Text) (stop : Stop) : List LogLine :=
  let ended : LogLine := match stop.error with
    | none => logLine .debug ("halt: sp=" ++ Text.ofNat stop.machine.sp ++ " hp=" ++
        Text.ofNat stop.machine.hp)
    | some e => logLine .error e.message
  logLine .debug ("running " ++ Text.ofNat p.code.size ++ " cells with " ++ Text.ofNat size ++
      " memory cells") ::
    (trace.map fun t => logLine .debug t) ++ [ended]

/-- How a run ended, if it did. -/
def stop? (p : Executable) : Machine.Outcome → Option Stop
  | .running _ => none
  | .halted m => some ⟨m, none⟩
  | .failed f m => some ⟨m, some (p.runtimeError m f)⟩

/-- Run a program from address 0 on a machine whose memory and registers are reset.  There is no
result if it does not end within the limit. -/
def run (p : Executable) (trace : Bool) (limit : Nat) (m : Machine) : Option (Logged Stop) :=
  let size := m.memory.size
  let (lines, outcome) :=
    if trace then p.traced limit [] m.reset else ([], m.reset.run p.code limit)
  (p.stop? outcome).map fun stop => ⟨stop, p.runLog size lines.reverse stop⟩

end Executable

end Foolscap
