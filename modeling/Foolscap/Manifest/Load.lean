import Foolscap.Host
import Foolscap.Manifest

/-!
# Finding project settings

The settings of a directory are in the nearest file on the way up to the root.
-/

namespace Foolscap

namespace Path

/-- A directory and those above it, the nearest first, at most so many. -/
def ancestorsFor : Nat → Text → List Text
  | 0, _ => []
  | fuel + 1, dir => dir :: if parent dir = dir then [] else ancestorsFor fuel (parent dir)

/-- A directory and those above it, the nearest first. -/
def ancestors (dir : Text) : List Text := ancestorsFor (dir.length + 1) dir

end Path

namespace Manifest

variable {m : Type → Type} [Monad m]

/-- The settings in a directory. -/
def load (host : Host m) (dir : Text) : m (Except LoadError Manifest) := do
  let path := Path.join dir fileName
  match ← host.read path with
  | .error e => return .error (.unreadable path e)
  | .ok text =>
    return ofText host.refusal path (Path.absolute (← host.workingDir) dir) text

/-- The first of some directories that has settings. -/
def firstWith (host : Host m) : List Text → m (Option Text)
  | [] => return none
  | dir :: dirs => do
    if ← host.holds (Path.join dir fileName) then return some dir
    else firstWith host dirs

/-- The settings for a directory, if there are any. -/
def find (host : Host m) (start : Text) : m (Except LoadError (Option Manifest)) := do
  match ← firstWith host (Path.ancestors (Path.absolute (← host.workingDir) start)) with
  | none => return .ok none
  | some dir => match ← load host dir with
    | .ok found => return .ok (some found)
    | .error e => return .error e

end Manifest

end Foolscap
