import Foolscap.Command
import Foolscap.Image.Uuid

/-!
# The program

The command line on a real system.
-/

namespace Foolscap

namespace Shell

/-- A path as the system takes it. -/
def pathOf (t : Text) : String := (String.fromUTF8? ⟨t.toArray⟩).getD ""

/-- What an error of the system means for a file. -/
def faultOf (e : IO.Error) : FileFault :=
  match e with
  | .noFileOrDirectory .. => .notFound
  | .alreadyExists .. => .alreadyExists
  | .inappropriateType _ 20 _ => .notDirectory
  | .inappropriateType _ 21 _ => .isDirectory
  | .invalidArgument .. => .invalid
  | e => .other (Text.ofString e.toString)

/-- Do something with a file, and tell what went wrong. -/
def attempt {α : Type} (action : FileAction) (path : Text) (act : IO α) :
    IO (Except FileError α) := do
  match ← act.toBaseIO with
  | .ok a => return .ok a
  | .error e => return .error ⟨action, path, faultOf e⟩

/-- Read a whole file. -/
def readFile (path : Text) : IO (Except FileError Text) := do
  match ← attempt .opening path (IO.FS.Handle.mk (pathOf path) .read) with
  | .error e => return .error e
  | .ok _ => attempt .reading path do
      return (← IO.FS.readBinFile (pathOf path)).data.toList

/-- The real system. -/
def host : Host IO where
  workingDir := return Text.ofString (← IO.currentDir).toString
  holds path := return (← (IO.FS.Handle.mk (pathOf path) .read).toBaseIO).toOption.isSome
  read := readFile
  write path data := attempt .opening path (IO.FS.writeBinFile (pathOf path) ⟨data.toArray⟩)
  makeDirs path := attempt .makingDir path (IO.FS.createDirAll (pathOf path))
  freshId := return Uuid.ofBytes (← IO.getRandomBytes 16).data.toList
  serveEditor := return .error (Text.ofString "no connection")

/-- Write the messages that are wanted. -/
def writeLog (t : Transcript) : IO Unit := do
  match t.logging with
  | none => return
  | some settings =>
    let lines := Text.unlines ((t.log.filter (LogLine.shows settings)).map LogLine.display)
    match settings.path with
    | none => (← IO.getStderr).write ⟨lines.toArray⟩
    | some path => do
      let handle ← IO.FS.Handle.mk (pathOf path) .append
      handle.write ⟨lines.toArray⟩

/-- More steps than any run takes. -/
def stepLimit : Nat := 4611686018427387904

end Shell

end Foolscap

open Foolscap in
/-- The command line. -/
def main (args : List String) : IO UInt32 := do
  let (exit, t) ← Command.run Shell.host Shell.stepLimit (args.map Text.ofString)
  (← IO.getStdout).write ⟨t.out.toArray⟩
  Shell.writeLog t
  (← IO.getStderr).write ⟨t.err.toArray⟩
  return exit.code.toUInt32
