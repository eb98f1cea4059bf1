import Foolscap.Files.Path
import Foolscap.Table

/-!
# Files

Reading and writing files, and an in-memory file tree on which that can be done.

## Design Notes

A path is followed part by part, so every directory named on the way must be there, even if the
next part leads out of it again.
-/

namespace Foolscap

/-- Why a file operation goes wrong.  `other` is for what a real system may add. -/
inductive FileFault where
  | notFound
  | notDirectory
  | isDirectory
  | alreadyExists
  | invalid
  | nameTooLong
  | other (message : Text)
  deriving DecidableEq, Repr

namespace FileFault

/-- The wording of a fault. -/
def message : FileFault → Text
  | notFound => "no such file or directory"
  | notDirectory => "not a directory"
  | isDirectory => "is a directory"
  | alreadyExists => "file exists"
  | invalid => "invalid argument"
  | nameTooLong => "file name too long"
  | other m => m

end FileFault

/-- What is done to a file. -/
inductive FileAction where
  | opening | reading | makingDir
  deriving DecidableEq, Repr

namespace FileAction

/-- The word for an action. -/
def display : FileAction → Text
  | .opening => "open"
  | .reading => "read"
  | .makingDir => "mkdir"

end FileAction

/-- A file operation that went wrong. -/
structure FileError where
  action : FileAction
  path : Text
  fault : FileFault
  deriving DecidableEq, Repr

namespace FileError

/-- The wording of an error. -/
def message (e : FileError) : Text :=
  e.action.display ++ " " ++ e.path ++ ": " ++ e.fault.message

end FileError

/-- What lies at a place of a file tree. -/
inductive FileNode where
  | file (data : Text)
  | dir
  deriving DecidableEq, Repr

/-- Files and directories by place.  The root is a directory and not listed. -/
abbrev FileTree := List (List Text × FileNode)

namespace FileTree

/-- What is listed under a place. -/
def listed? : FileTree → List Text → Option FileNode
  | [], _ => none
  | (p, n) :: t, place => if p = place then some n else listed? t place

/-- What lies at a place. -/
def node? (t : FileTree) (place : List Text) : Option FileNode :=
  if place.isEmpty then some .dir else listed? t place

/-- Put a node at a place. -/
def put : FileTree → List Text → FileNode → FileTree
  | [], place, n => [(place, n)]
  | (p, m) :: t, place, n => if p = place then (p, n) :: t else (p, m) :: put t place n

@[simp] theorem listed?_put_self (t : FileTree) (place : List Text) (n : FileNode) :
    listed? (put t place n) place = some n := by
  induction t with
  | nil => simp [put, listed?]
  | cons row t ih =>
    obtain ⟨p, m⟩ := row
    by_cases hp : p = place
    · simp [put, listed?, hp]
    · simp [put, listed?, hp, ih]

theorem listed?_put_of_ne (t : FileTree) {place other : List Text} (n : FileNode)
    (h : other ≠ place) : listed? (put t place n) other = listed? t other := by
  induction t with
  | nil => simp [put, listed?, h.symm]
  | cons row t ih =>
    obtain ⟨p, m⟩ := row
    by_cases hp : p = place
    · subst hp
      simp [put, listed?, h.symm]
    · simp [put, listed?, hp, ih]

/-- A node just put is found at its place. -/
theorem node?_put_self (t : FileTree) {place : List Text} (h : place ≠ []) (n : FileNode) :
    (t.put place n).node? place = some n := by
  have hplace : place.isEmpty = false := by simpa using h
  simp [node?, hplace]

/-- Putting a node at one place leaves the others alone. -/
theorem node?_put_of_ne (t : FileTree) {place other : List Text} (n : FileNode)
    (h : other ≠ place) : (t.put place n).node? other = t.node? other := by
  rw [node?, node?, listed?_put_of_ne t n h]

/-- Where a path leads: to a node, or to a free place in a directory. -/
inductive Target where
  | node (place : List Text) (n : FileNode)
  | free (place : List Text)

/-- The longest name of a file. -/
def maxName : Nat := 255

/-- The longest path. -/
def maxPath : Nat := 4095

/-- Follow the parts of a path from a place. -/
def follow (t : FileTree) : List Text → List Text → Except FileFault Target
  | place, [] => match t.node? place with
    | some n => .ok (.node place n)
    | none => .error .notFound
  | place, part :: parts =>
    match t.node? place with
    | none => .error .notFound
    | some (.file _) => .error .notDirectory
    | some .dir =>
      if part.isEmpty || part = Path.dot then follow t place parts
      else if part = Path.dotDot then follow t place.dropLast parts
      else if maxName < part.length then .error .nameTooLong
      else if (t.node? (place ++ [part])).isSome then follow t (place ++ [part]) parts
      else if parts.all List.isEmpty then .ok (.free (place ++ [part]))
      else .error .notFound

/-- The parts of an absolute path. -/
def placeOf (p : Text) : List Text := (Text.splitAt Path.slash (Path.clean p)).filter (· ≠ [])

/-- What is wrong with a path, whatever the tree. -/
def pathFault? (p : Text) : Option FileFault :=
  if p.isEmpty then some .notFound
  else if p.contains 0 then some .invalid
  else if maxPath < p.length then some .nameTooLong
  else none

/-- Where a path leads from the current directory. -/
def target (t : FileTree) (cwd p : Text) : Except FileFault Target :=
  match pathFault? p with
  | some f => .error f
  | none => follow t (if Path.isAbsolute p then [] else placeOf cwd) (Text.splitAt Path.slash p)

/-- Whether a path leads to something. -/
def holds (t : FileTree) (cwd p : Text) : Bool :=
  match t.target cwd p with
  | .ok (.node _ _) => true
  | _ => false

/-- The content of a file. -/
def read (t : FileTree) (cwd p : Text) : Except FileError Text :=
  match t.target cwd p with
  | .ok (.node _ (.file data)) => .ok data
  | .ok (.node _ .dir) => .error ⟨.reading, p, .isDirectory⟩
  | .ok (.free _) => .error ⟨.opening, p, .notFound⟩
  | .error f => .error ⟨.opening, p, f⟩

/-- Whether a path leads to a directory.  The empty path is the current directory. -/
def isDir (t : FileTree) (cwd p : Text) : Bool :=
  p.isEmpty || match t.target cwd p with
    | .ok (.node _ .dir) => true
    | _ => false

/-- A path without its last part, with the slash before that part. -/
def above (p : Text) : Text := Path.upToSlash (p.reverse.dropWhile (· = Path.slash)).reverse

/-- Whether a path can only be that of a directory: a slash ends it, and nothing is wrong before its
last part. -/
def namesDir (t : FileTree) (cwd p : Text) : Bool :=
  p.getLast? = some Path.slash && (pathFault? p).isNone && t.isDir cwd (above p)

/-- Write a file, which is made if it is not there. -/
def write (t : FileTree) (cwd p data : Text) : Except FileError FileTree :=
  if t.namesDir cwd p then .error ⟨.opening, p, .isDirectory⟩
  else match t.target cwd p with
    | .ok (.node place (.file _)) => .ok (t.put place (.file data))
    | .ok (.node _ .dir) => .error ⟨.opening, p, .isDirectory⟩
    | .ok (.free place) => .ok (t.put place (.file data))
    | .error f => .error ⟨.opening, p, f⟩

/-- Make one directory. -/
def makeDir (t : FileTree) (cwd p : Text) : Except FileFault FileTree :=
  match t.target cwd p with
  | .ok (.free place) => .ok (t.put place .dir)
  | .ok (.node _ _) => .error .alreadyExists
  | .error f =>
    -- A file with a slash after it is there all the same.
    if f = .notDirectory && p.getLast? = some Path.slash &&
        t.holds cwd (p.reverse.dropWhile (· = Path.slash)).reverse
    then .error .alreadyExists
    else .error f

/-- Make a directory and those above it that are missing, at most so many. -/
def makeDirsFor : Nat → FileTree → Text → Text → Except FileError FileTree
  | 0, _, _, p => .error ⟨.makingDir, p, .nameTooLong⟩
  | fuel + 1, t, cwd, p =>
    match t.target cwd p with
    | .ok (.node _ .dir) => .ok t
    | .ok (.node _ (.file _)) => .error ⟨.makingDir, p, .notDirectory⟩
    | _ =>
      let made := if (above p).isEmpty then .ok t else makeDirsFor fuel t cwd (above p)
      match made with
      | .error e => .error e
      | .ok t => match t.makeDir cwd p with
        | .ok t => .ok t
        | .error f => .error ⟨.makingDir, p, f⟩

/-- Make a directory and those above it that are missing.  Every step up drops a byte. -/
def makeDirs (t : FileTree) (cwd p : Text) : Except FileError FileTree :=
  makeDirsFor (p.length + 1) t cwd p

end FileTree

end Foolscap
