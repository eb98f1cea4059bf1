import Foolscap.Text

/-!
# Paths

File paths with slashes, handled as text.
-/

namespace Foolscap

namespace Path

/-- The byte between the parts of a path. -/
abbrev slash : UInt8 := 47

/-- The current directory. -/
def dot : Text := "."

/-- The directory above. -/
def dotDot : Text := ".."

/-- Whether a path starts at the root. -/
def isAbsolute (p : Text) : Bool := p.head? = some slash

/-- Add a part to the parts kept so far, the latest first.  A part after which the directory above
follows is dropped again; above the root there is nothing. -/
def addPart (rooted : Bool) (kept : List Text) (part : Text) : List Text :=
  if part.isEmpty || part = dot then kept
  else if part = dotDot then
    match kept with
    | [] => if rooted then [] else [dotDot]
    | k :: ks => if k = dotDot then dotDot :: kept else ks
  else part :: kept

/-- The shortest path that means the same, by its text alone. -/
def clean (p : Text) : Text :=
  let rooted := isAbsolute p
  let parts := ((Text.splitAt slash p).foldl (addPart rooted) []).reverse
  if rooted then slash :: Text.join [slash] parts
  else if parts.isEmpty then dot
  else Text.join [slash] parts

/-- A path below a directory.  Empty parts do not count. -/
def join (dir p : Text) : Text :=
  match dir, p with
  | [], [] => []
  | [], p => clean p
  | dir, [] => clean dir
  | dir, p => clean (dir ++ slash :: p)

/-- A path up to its last slash, the slash included. -/
def upToSlash (p : Text) : Text := (p.reverse.dropWhile (· ≠ slash)).reverse

/-- The directory that a path lies in. -/
def parent (p : Text) : Text := clean (upToSlash p)

/-- A path as seen from the root, given the current directory. -/
def absolute (cwd p : Text) : Text := if isAbsolute p then clean p else join cwd p

end Path

end Foolscap
