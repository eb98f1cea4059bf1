import Foolscap.Command.Console
import Foolscap.Command.Flag
import Foolscap.Compile
import Foolscap.Image
import Foolscap.Machine.Run
import Foolscap.Manifest.Load
import Foolscap.Tree.Outline

/-!
# Commands

The command line.  A program, its assembly or its image is run, or shown, or written to a file; or
the project in a directory is built.
-/

namespace Foolscap

namespace Command

open Console

variable {m : Type → Type} [Monad m]

/-! ### Options -/

/-- What the flags of the command say. -/
structure Options where
  showAsm : Bool := false
  showTree : Bool := false
  checkOnly : Bool := false
  output : Text := []
  asmInput : Bool := false
  imageInput : Bool := false
  editor : Bool := false
  verbose : Bool := false
  trace : Bool := false
  memory : Int := 0
  deriving DecidableEq, Repr

/-- The ending of the name of an image. -/
def imageSuffix : Text := ".fimg"

/-- The flags of the command, in byte order. -/
def flags : List (Flag Options) :=
  [ ⟨"S", "Print the generated assembly instead of running",
      .switch fun b o => { o with showAsm := b }, []⟩,
    ⟨"asm", "Input is SVM assembly", .switch fun b o => { o with asmInput := b }, []⟩,
    ⟨"ast", "Print the resolved AST instead of running",
      .switch fun b o => { o with showTree := b }, []⟩,
    ⟨"check", "Only report syntax, scope and type errors",
      .switch fun b o => { o with checkOnly := b }, []⟩,
    ⟨"image", "Input is a compiled image", .switch fun b o => { o with imageInput := b }, []⟩,
    ⟨"lsp", "Start the language server on stdio", .switch fun b o => { o with editor := b }, []⟩,
    ⟨"mem", "Number of VM memory cells (default from fool.toml or 10000)",
      .number fun n o => { o with memory := n }, []⟩,
    ⟨"o", "Write assembly (or an image, for .fimg paths) instead of running",
      .text fun t o => { o with output := t }, []⟩,
    ⟨"trace", "Log every executed instruction", .switch fun b o => { o with trace := b }, []⟩,
    ⟨"v", "Verbose output", .switch fun b o => { o with verbose := b }, []⟩ ]

/-- How the command is used. -/
def usage : Text :=
  Text.unlines
    [ "Usage: fool [options] [file]",
      "       fool build",
      [],
      "Compiles a FOOL program and runs it. Without a file, the entry of",
      "the nearest fool.toml is used.",
      [],
      "Options:" ] ++
  Flag.listing flags ++
  Text.unlines
    [ [],
      "Examples:",
      "  fool prog.fool              # compile and run",
      "  fool -S prog.fool           # show assembly",
      "  fool -o prog.fimg prog.fool # save an image",
      "  fool -image prog.fimg       # run an image",
      "  fool -lsp                   # language server" ]

/-- What the flags of a build say. -/
structure BuildOptions where
  dir : Text := "."
  verbose : Bool := false
  deriving DecidableEq, Repr

/-- The flags of a build, in byte order. -/
def buildFlags : List (Flag BuildOptions) :=
  [ ⟨"C", "Project directory", .text fun t o => { o with dir := t }, "."⟩,
    ⟨"v", "Verbose output", .switch fun b o => { o with verbose := b }, []⟩ ]

/-- How a build is used. -/
def buildUsage : Text := Text.unlines ["Usage of fool build:"] ++ Flag.listing buildFlags

/-- Read flags.  An error is told together with how the command is used. -/
def readFlags {σ : Type} (flags : List (Flag σ)) (usage : Text) (onHelp : Exit) (start : σ)
    (args : List Text) : Console m (σ × List Text) := do
  match Flag.parse flags start args with
  | .ok read => return read
  | .error e =>
    match e.message? with
    | none =>
      complain usage
      throw onHelp
    | some message =>
      complain (message ++ [Text.newline] ++ usage)
      throw .failed

/-! ### Settings -/

/-- The settings for a directory, if there are any. -/
def settings (host : Host m) (dir : Text) : Console m (Option Manifest) := do
  match ← on (Manifest.find host dir) with
  | .ok found => return found
  | .error e => fail ("Error loading " ++ Manifest.fileName ++ ": " ++ e.message)

/-- The log that settings ask for.  A verbose command logs more. -/
def logSettings (s : Manifest) (verbose : Bool) : LogSettings :=
  { verbosity := if verbose && s.verbosity < 1 then 1 else s.verbosity
    path := if s.logPath.isEmpty then none else some s.logPath }

/-! ### Steps -/

/-- A message of the command. -/
def info (t : Text) : LogLine := ⟨.info, .command, t⟩

/-- The lines that report the errors of a file. -/
def errorReport (path : Text) (errors : List Diagnostic) : Text :=
  Text.unlines (errors.map fun d => path ++ ": " ++ d.display) ++
    Text.ofNat errors.length ++ " error(s), compilation stopped"

/-- Compile a file; the source text is given back too. -/
def compileFile (host : Host m) (path : Text) : Console m (Text × Compilation) := do
  let source ← onFiles (host.read path)
  match ← logged (compile source) with
  | .ok c =>
    note [info ("compiled " ++ path ++ ": program has type " ++
      (c.ty.getD (.missing none)).display)]
    return (source, c)
  | .error (.rejected errors) => fail (errorReport path errors)
  | .error (.broken _) => fail (path ++ ": incomplete program")

/-- Assemble a text; errors are told with a word in front. -/
def assemble (front text : Text) : Console m Executable :=
  match Executable.assemble text with
  | .ok p => do
    note [p.assembledLog]
    return p
  | .error e => fail (front ++ ": " ++ e.message)

/-- Run a program. -/
def execute (limit : Nat) (o : Options) (p : Executable) : Console m Exit := do
  let some machine := Machine.new? o.memory | do
    complain ("out of memory" ++ [Text.newline])
    return .exhausted
  match p.run o.trace limit machine with
  | none => fail "step limit reached"
  | some run =>
    let stop ← logged run
    say stop.machine.output
    match stop.error with
    | some e =>
      complain (e.message ++ [Text.newline])
      return .faulted
    | none =>
      if o.verbose then
        complain ("halted: sp=" ++ Text.ofNat stop.machine.sp ++ " hp=" ++
          Text.ofNat stop.machine.hp ++ [Text.newline])
      return .ok

/-- Whether a path is that of an image. -/
def isImagePath (path : Text) : Bool := imageSuffix.isSuffixOf path

/-- Write a program to a file, as an image or as assembly. -/
def writeProgram (host : Host m) (path : Text) (asImage : Bool) (p : Executable) (source : Text)
    (o : Options) : Console m Unit := do
  if asImage then
    let image := Image.ofExecutable p (← on host.freshId) source o.memory
    onFiles (host.write path image.marshal)
    note [⟨.info, .machine, "wrote image " ++ path ++ " (" ++ Text.ofNat image.cells ++
      " cells, build " ++ image.buildId ++ ")"⟩]
  else onFiles (host.write path p.text)
  if o.verbose then
    say ("Wrote " ++ path ++ " (" ++ Text.ofNat p.code.size ++ " cells)" ++ [Text.newline])

/-- Write a program to the file that the options name, or run it. -/
def finish (host : Host m) (limit : Nat) (o : Options) (source : Text) (p : Executable) :
    Console m Exit := do
  if o.output.isEmpty then execute limit o p
  else
    writeProgram host o.output (isImagePath o.output) p source o
    return .ok

/-! ### Commands -/

/-- Compile a file, then do what the options say. -/
def runSource (host : Host m) (limit : Nat) (o : Options) (path : Text) : Console m Exit := do
  let (source, c) ← compileFile host path
  if o.checkOnly then
    if o.verbose then
      say (path ++ ": ok, type " ++ (c.ty.getD (.missing none)).display ++ [Text.newline])
    return .ok
  else if o.showTree then
    say c.program.outline
    return .ok
  else if o.showAsm then
    say c.assembly
    return .ok
  else
    let p ← assemble "Internal error" c.assembly
    finish host limit o source p

/-- Assemble a file, then do what the options say. -/
def runAssembly (host : Host m) (limit : Nat) (o : Options) (path : Text) : Console m Exit := do
  let text ← onFiles (host.read path)
  let p ← assemble path text
  finish host limit o [] p

/-- Why the file of an image cannot be read.  Reading is told apart from opening. -/
def imageFileError (e : FileError) : Text :=
  match e.action with
  | .reading => "failed to read image data: " ++ e.message
  | _ => e.message

/-- Run the program of an image, with the memory size that the image gives. -/
def runImage (host : Host m) (limit : Nat) (o : Options) (path : Text) : Console m Exit := do
  let refuse {α : Type} (message : Text) : Console m α := fail (path ++ ": " ++ message)
  match ← on (host.read path) with
  | .error e => refuse (imageFileError e)
  | .ok data => match Image.unmarshal data with
    | .error e => refuse e.message
    | .ok image => match ← logged image.executable with
      | .error f => refuse f.message
      | .ok p =>
        note [info ("loaded image " ++ path ++ " (build " ++ image.buildId ++ ")")]
        execute limit (if 0 < image.memory then { o with memory := image.memory } else o) p

/-- Serve an editor. -/
def serve (host : Host m) : Console m Exit := do
  match ← on host.serveEditor with
  | .ok _ => return .ok
  | .error e => fail ("LSP error: " ++ e)

/-- Do what the options say with one file. -/
def runFile (host : Host m) (limit : Nat) (o : Options) (path : Text) : Console m Exit :=
  if o.imageInput then runImage host limit o path
  else if o.asmInput then runAssembly host limit o path
  else runSource host limit o path

/-- The command without a word in front: run a file, or the entry of the settings. -/
def runDefault (host : Host m) (limit : Nat) (args : List Text) : Console m Exit := do
  let (o, files) ← readFlags flags usage .ok {} args
  let found ← settings host "."
  let s := found.getD (Manifest.forDir (← on host.workingDir))
  configure (logSettings s o.verbose)
  if o.editor then serve host
  else
    let o := { o with
      memory := if o.memory ≤ 0 then s.memory else o.memory
      trace := o.trace || s.trace }
    match files with
    | [] => runFile host limit o s.entryPath
    | [path] => runFile host limit o path
    | _ =>
      complain usage
      return .failed

/-- Write a program to a file of a build, and make its directory. -/
def buildOutput (host : Host m) (path : Text) (asImage : Bool) (p : Executable) (source : Text)
    (o : Options) : Console m Unit := do
  if path.isEmpty then return
  onFiles (host.makeDirs (Path.parent path))
  writeProgram host path asImage p source o

/-- Build the project of a directory. -/
def build (host : Host m) (args : List Text) : Console m Exit := do
  let (o, _) ← readFlags buildFlags buildUsage .failed {} args
  match ← settings host o.dir with
  | none => fail ("Error: no " ++ Manifest.fileName ++ " found")
  | some s =>
    configure (logSettings s o.verbose)
    if s.asm.isEmpty && s.image.isEmpty then
      fail ("Nothing to build: set [build] asm or image in " ++ Manifest.fileName)
    else
      let options : Options := { memory := s.memory, verbose := o.verbose }
      let (source, c) ← compileFile host s.entryPath
      let p ← assemble "Internal error" c.assembly
      buildOutput host s.asmPath false p source options
      buildOutput host s.imagePath true p source options
      if o.verbose then say ("Built " ++ s.name ++ [Text.newline])
      return .ok

/-- A command with its arguments.  Programs run for at most so many steps. -/
def run (host : Host m) (limit : Nat) (args : List Text) : m (Exit × Transcript) :=
  Console.run (match args with
    | word :: rest => if word = Text.ofString "build" then build host rest
      else runDefault host limit args
    | [] => runDefault host limit args)

end Command

end Foolscap
