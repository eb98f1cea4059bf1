import Foolscap.Files

/-!
# Hosts

What commands need from the system that they run on: files, the current directory, identifiers that
no one has used, a place to serve editors, and the words for settings that cannot be read.
-/

namespace Foolscap

/-- What is said of settings that cannot be read where the system has no words of its own. -/
def plainRefusal (_ : Text) : Text := "toml: invalid document"

/-- The operations of a system, each with its effects. -/
structure Host (m : Type → Type) where
  workingDir : m Text
  holds : Text → m Bool
  read : Text → m (Except FileError Text)
  write : Text → Text → m (Except FileError Unit)
  makeDirs : Text → m (Except FileError Unit)
  freshId : m Text
  serveEditor : m (Except Text Unit)
  refusal : Text → Text := plainRefusal

namespace FileTree

/-- Replace the tree by the result of an operation, unless that failed. -/
def commit (change : FileTree → Except FileError FileTree) :
    StateM FileTree (Except FileError Unit) := do
  match change (← get) with
  | .ok t =>
    set t
    return .ok ()
  | .error e => return .error e

/-- A system whose files are a file tree.  Every identifier is the same one, and no editor is there
to be served. -/
def host (cwd id : Text) : Host (StateM FileTree) where
  workingDir := return cwd
  holds path := return (← get).holds cwd path
  read path := return (← get).read cwd path
  write path data := commit fun t => t.write cwd path data
  makeDirs path := commit fun t => t.makeDirs cwd path
  freshId := return id
  serveEditor := return .ok ()

end FileTree

end Foolscap
