import Foolscap.Text

/-!
# Logs

What the parts of the system tell about their work, beside their results.
-/

namespace Foolscap

/-- How important a message is. -/
inductive Severity where
  | error | info | debug
  deriving DecidableEq, Repr

namespace Severity

/-- The severity as logs show it. -/
def display : Severity → Text
  | error => "Error"
  | info => "Info"
  | debug => "Debug"

end Severity

/-- The part of the system that a message comes from. -/
inductive Channel where
  | compiler | machine | editor | command
  deriving DecidableEq, Repr

namespace Channel

/-- The name of the channel. -/
def display : Channel → Text
  | compiler => "fool.compiler"
  | machine => "fool.vm"
  | editor => "fool.lsp"
  | command => "fool.cli"

end Channel

/-- Which messages are wanted, and the file that they go to, if it is not the error output.  The
greater the verbosity, the more messages. -/
structure LogSettings where
  verbosity : Int
  path : Option Text
  deriving DecidableEq, Repr

/-- A message. -/
structure LogLine where
  severity : Severity
  channel : Channel
  text : Text
  deriving DecidableEq, Repr

namespace LogLine

/-- The message as one line. -/
def display (l : LogLine) : Text :=
  l.severity.display ++ " " ++ l.channel.display ++ ": " ++ l.text

/-- Whether a message is wanted. -/
def shows (settings : LogSettings) (l : LogLine) : Bool :=
  match l.severity with
  | .error => -2 ≤ settings.verbosity
  | .info => 1 ≤ settings.verbosity
  | .debug => 2 ≤ settings.verbosity

end LogLine

/-- A result and the messages on the way to it. -/
structure Logged (α : Type) where
  value : α
  log : List LogLine := []

namespace Logged

variable {α β : Type}

/-- Go on from a result, with messages in front of those to come. -/
def bind (a : Logged α) (f : α → Logged β) : Logged β :=
  let b := f a.value
  ⟨b.value, a.log ++ b.log⟩

/-- Change a result and keep its messages. -/
def map (f : α → β) (a : Logged α) : Logged β := ⟨f a.value, a.log⟩

end Logged

end Foolscap
