import Foolscap.Assembly.Generate
import Foolscap.Log
import Foolscap.Tree.Parser
import Foolscap.Typing

/-!
# Compiling

The way from source text to assembly: parse, resolve names, check types, generate code.  Each step
runs to its end; one that finds errors is the last.
-/

namespace Foolscap

/-! ### Messages -/

namespace CompilerLog

/-- A message of the compiler for those who follow its work. -/
def info (t : Text) : LogLine := ⟨.info, .compiler, t⟩

/-- A message of the compiler for those who search for a fault. -/
def debug (t : Text) : LogLine := ⟨.debug, .compiler, t⟩

end CompilerLog

namespace ClassNote

/-- The message about a finished class. -/
def logLine (n : ClassNote) : LogLine :=
  CompilerLog.debug ("class " ++ n.name ++ ": " ++ Text.ofNat n.fields ++ " fields, " ++
    Text.ofNat n.methods ++ " methods")

end ClassNote

namespace Resolution

/-- The messages of resolving names. -/
def log (r : Resolution) : List LogLine := r.notes.map ClassNote.logLine

end Resolution

namespace Checked

/-- The messages of checking types. -/
def log (c : Checked) : List LogLine :=
  List.replicate c.skipped (CompilerLog.debug "skipping check on incomplete type: incomplete type")

end Checked

namespace Generated

/-- The message of generating code. -/
def log (g : Generated) : List LogLine :=
  [CompilerLog.debug ("generated " ++ Text.ofNat g.lines.length ++ " lines (" ++
    Text.ofNat g.routines.length ++ " in subroutines)")]

end Generated

/-! ### Analysis -/

/-- What is known of a program without generating code.  The errors are those of the first step
that found any; the type is that of the body if no step did. -/
structure Analysis where
  program : Option Program := none
  context : Context := {}
  ty : Option Ty := none
  errors : List Diagnostic := []
  broken : Bool := false

/-- Resolve the names of a program and check its types. -/
def Program.analyse (p : Program) : Logged Analysis :=
  let r := p.resolve {}
  let a : Analysis := { program := r.program, context := r.context }
  if r.broken then ⟨{ a with broken := true }, r.log⟩
  else if !r.errors.isEmpty then
    ⟨{ a with errors := r.errors },
      r.log ++ [CompilerLog.info ("symbol table: " ++ Text.ofNat r.errors.length ++ " errors")]⟩
  else
    let c := r.program.check r.context.supers
    let log := r.log ++
      CompilerLog.debug ("symbol table: " ++ Text.ofNat r.context.classes.length ++ " classes") ::
      c.log
    if c.broken then ⟨{ a with broken := true }, log⟩
    else if !c.errors.isEmpty then
      ⟨{ a with errors := c.errors },
        log ++ [CompilerLog.info ("type check: " ++ Text.ofNat c.errors.length ++ " errors")]⟩
    else
      ⟨{ a with ty := c.ty },
        log ++ [CompilerLog.debug ("type check: program has type " ++
          (c.ty.getD (.missing none)).display)]⟩

/-- The analysis of a program keeps what the resolution of its names gives. -/
theorem Program.resolved_analyse (p : Program) :
    p.analyse.value.program = some (p.resolve {}).program ∧
      p.analyse.value.context = (p.resolve {}).context := by
  unfold Program.analyse
  dsimp only
  split
  · exact ⟨rfl, rfl⟩
  · split
    · exact ⟨rfl, rfl⟩
    · split
      · exact ⟨rfl, rfl⟩
      · split <;> exact ⟨rfl, rfl⟩

/-- Parse a program, resolve its names and check its types. -/
def analyse (source : Text) : Logged Analysis :=
  match Program.parse source with
  | .error d => ⟨{ errors := [d] }, []⟩
  | .ok p => p.analyse

/-! ### Code -/

/-- Why a program has no code: it has errors, or its tree lacks something. -/
inductive CompileError where
  | rejected (errors : List Diagnostic)
  | broken (gap : Option Gap)

/-- A compiled program. -/
structure Compilation where
  program : Program
  context : Context
  ty : Option Ty
  code : Generated

namespace Compilation

/-- The assembly as text. -/
def assembly (c : Compilation) : Text := Line.textOf c.code.lines

end Compilation

namespace Analysis

/-- Generate the code of an analysed program. -/
def generate (a : Analysis) : Logged (Except CompileError Compilation) :=
  match a.program with
  | none => ⟨.error (.rejected a.errors), []⟩
  | some p =>
    if a.broken then ⟨.error (.broken none), []⟩
    else if !a.errors.isEmpty then ⟨.error (.rejected a.errors), []⟩
    else match p.gap? with
      | some gap => ⟨.error (.broken (some gap)), []⟩
      | none =>
        let g := p.code {}
        ⟨.ok ⟨p, a.context, a.ty, g⟩, g.log⟩

end Analysis

/-- Compile a parsed program. -/
def Program.compile (p : Program) : Logged (Except CompileError Compilation) :=
  p.analyse.bind Analysis.generate

/-- Compile a source text. -/
def compile (source : Text) : Logged (Except CompileError Compilation) :=
  match Program.parse source with
  | .error d =>
    ⟨.error (.rejected [d]), [CompilerLog.info ("parse failed: " ++ Diagnostic.displayAll [d])]⟩
  | .ok p => p.compile

/-! ### Sessions -/

/-- What several programs share: the classes known so far, and the numbering of labels. -/
structure Session where
  context : Context := {}
  emitter : Emitter := {}

/-- How far a program of a session came: it was parsed, its names were resolved, its types were
checked, or its code was generated. -/
inductive Submission where
  | unparsed (error : Diagnostic)
  | unresolved (errors : List Diagnostic)
  | untyped (checked : Checked)
  | generated (ty : Option Ty) (code : Generated)
  | broken (gap : Option Gap)

namespace Session

/-- Compile one more program. -/
def submit (s : Session) (source : Text) : Logged (Submission × Session) :=
  match Program.parse source with
  | .error d => ⟨(.unparsed d, s), []⟩
  | .ok p =>
    let r := p.resolve s.context
    let s := { s with context := r.context }
    if r.broken then ⟨(.broken none, s), r.log⟩
    else if !r.errors.isEmpty then ⟨(.unresolved r.errors, s), r.log⟩
    else
      let c := r.program.check r.context.supers
      let log := r.log ++ c.log
      if c.broken then ⟨(.broken none, s), log⟩
      else if !c.errors.isEmpty then ⟨(.untyped c, s), log⟩
      else match r.program.gap? with
        | some gap => ⟨(.broken (some gap), s), log⟩
        | none =>
          let g := r.program.code s.emitter
          ⟨(.generated c.ty g, { s with emitter := g.emitter }), log ++ g.log⟩

end Session

end Foolscap
