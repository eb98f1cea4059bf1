import Foolscap.Host
import Foolscap.Log

/-!
# Consoles

What a command leaves behind on a console: two outputs, messages for the log, and an exit status.
-/

namespace Foolscap

/-- How a command ends: well, with an error, with a fault of the machine, or for want of memory. -/
inductive Exit where
  | ok | failed | faulted | exhausted
  deriving DecidableEq, Repr

namespace Exit

/-- The exit status. -/
def code : Exit → Nat
  | ok => 0
  | failed => 1
  | faulted => 2
  | exhausted => 2

end Exit

/-- What a command has written, and what it wants to be logged. -/
structure Transcript where
  out : Text := []
  err : Text := []
  logging : Option LogSettings := none
  log : List LogLine := []
  deriving DecidableEq, Repr

/-- A computation that writes on a console and may end the command early. -/
abbrev Console (m : Type → Type) := ExceptT Exit (StateT Transcript m)

namespace Console

variable {m : Type → Type} [Monad m] {α : Type}

/-- Write to the output. -/
def say (t : Text) : Console m Unit := modify fun s => { s with out := s.out ++ t }

/-- Write to the error output. -/
def complain (t : Text) : Console m Unit := modify fun s => { s with err := s.err ++ t }

/-- Log messages. -/
def note (log : List LogLine) : Console m Unit := modify fun s => { s with log := s.log ++ log }

/-- The result of something that leaves messages. -/
def logged (a : Logged α) : Console m α := do
  note a.log
  return a.value

/-- Say which messages are wanted. -/
def configure (settings : LogSettings) : Console m Unit :=
  modify fun s => { s with logging := some settings }

/-- Write a line to the error output and end the command. -/
def fail (t : Text) : Console m α := do
  complain (t ++ [Text.newline])
  throw .failed

/-- Do something on the system. -/
def on (act : m α) : Console m α := ExceptT.lift (StateT.lift act)

/-- Do something with files; an error ends the command. -/
def onFiles (act : m (Except FileError α)) : Console m α := do
  match ← on act with
  | .ok a => return a
  | .error e => fail ("Error: " ++ e.message)

/-- Run a command from an empty console. -/
def run (c : Console m Exit) : m (Exit × Transcript) := do
  match ← StateT.run (ExceptT.run c) {} with
  | (.ok e, t) => return (e, t)
  | (.error e, t) => return (e, t)

end Console

end Foolscap
