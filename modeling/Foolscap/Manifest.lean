import Foolscap.Files
import Foolscap.Toml.Parser

/-!
# Project settings

The settings of a project, as they are kept in a file named `fool.toml` in its directory.

## Design Notes

Names of settings are compared without regard to case.  A setting of the wrong type is an error; so
is a key that is no setting, but only if all types are right.  What a malformed file is told to be
wrong with are the words of the library that reads it, which are not ours to choose.
-/

namespace Foolscap

/-- The settings of a project.  An empty path means that there is no such file. -/
structure Manifest where
  name : Text := []
  version : Text := []
  entry : Text := []
  asm : Text := []
  image : Text := []
  memory : Int := 0
  trace : Bool := false
  verbosity : Int := 0
  logFile : Text := []
  dir : Text := []
  deriving DecidableEq, Repr, Inhabited

namespace Manifest

/-- The name of the file with the settings. -/
def fileName : Text := "fool.toml"

/-- The program to compile unless the settings name one. -/
def defaultEntry : Text := "main.fool"

/-- The number of memory cells unless the settings give one. -/
def defaultMemory : Int := 10000

/-- Fill in what the settings leave open. -/
def withDefaults (m : Manifest) : Manifest :=
  { m with
    entry := if m.entry.isEmpty then defaultEntry else m.entry
    memory := if m.memory = 0 then defaultMemory else m.memory }

/-- The settings of a directory without a file. -/
def forDir (dir : Text) : Manifest := withDefaults { dir }

/-! ### Keys -/

/-- A setting that a file can make. -/
inductive Setting where
  | name | version | entry | asm | image | memory | trace | verbosity | logFile
  deriving DecidableEq, Repr

namespace Setting

/-- All settings. -/
def all : List Setting := [name, version, entry, asm, image, memory, trace, verbosity, logFile]

/-- The table of a setting. -/
def table : Setting → Text
  | name => "project"
  | version => "project"
  | entry => "source"
  | asm => "build"
  | image => "build"
  | memory => "vm"
  | trace => "vm"
  | verbosity => "log"
  | logFile => "log"

/-- The name of a setting in its table. -/
def key : Setting → Text
  | name => "name"
  | version => "version"
  | entry => "entry"
  | asm => "asm"
  | image => "image"
  | memory => "memory"
  | trace => "trace"
  | verbosity => "verbosity"
  | logFile => "file"

end Setting

/-- A name without regard to case.  Besides the capital letters, the long s counts as `s` and the
sign for kelvin as `k`. -/
def folded : Text → Text
  | 0xC5 :: 0xBF :: t => 115 :: folded t
  | 0xE2 :: 0x84 :: 0xAA :: t => 107 :: folded t
  | b :: t => Text.lowerByte b :: folded t
  | [] => []

/-- Whether a name is that of a table of settings. -/
def isTable (t : Text) : Bool := Setting.all.any fun s => s.table = folded t

/-- The setting with a name in a table. -/
def setting? (table key : Text) : Option Setting :=
  Setting.all.find? fun s => s.table = folded table && s.key = folded key

/-- Whether a key makes a setting, or names a table of settings, in the tables of a document.  A key
that was written but is no longer there does not count. -/
def isUsed (root : Table Toml) : Toml.Key → Bool
  | [table] => isTable table && root.has table
  | [table, key] => (setting? table key).isSome && match root.get? table with
    | some (.table rows) => Table.has rows key
    | _ => false
  | _ => false

/-- Make a setting; the value must be of the right type. -/
def assign (m : Manifest) : Setting → Toml → Option Manifest
  | .name, .text t => some { m with name := t }
  | .version, .text t => some { m with version := t }
  | .entry, .text t => some { m with entry := t }
  | .asm, .text t => some { m with asm := t }
  | .image, .text t => some { m with image := t }
  | .memory, .integer n => some { m with memory := n }
  | .trace, .boolean b => some { m with trace := b }
  | .verbosity, .integer n => some { m with verbosity := n }
  | .logFile, .text t => some { m with logFile := t }
  | _, _ => none

/-- Make the settings of a table. -/
def readTable (table : Text) (m : Manifest) (rows : Table Toml) : Option Manifest :=
  rows.foldlM (fun m (key, v) => match setting? table key with
    | some s => m.assign s v
    | none => some m) m

/-- Make the settings of a document. -/
def readRoot (m : Manifest) (root : Table Toml) : Option Manifest :=
  root.foldlM (fun m (table, v) =>
    if isTable table then
      match v with
      | .table rows => m.readTable table rows
      | _ => none
    else some m) m

/-! ### Errors -/

/-- What is wrong with settings that could be read. -/
inductive Fault where
  | memory (got : Int)
  | verbosity (got : Int)
  deriving DecidableEq, Repr

namespace Fault

/-- The wording of a fault. -/
def message : Fault → Text
  | memory got => "vm.memory must be positive, got " ++ Text.ofInt got
  | verbosity got => "log.verbosity must be between -4 and 2, got " ++ Text.ofInt got

end Fault

/-- What is wrong with settings. -/
def fault? (m : Manifest) : Option Fault :=
  if m.memory < 0 then some (.memory m.memory)
  else if m.verbosity < -4 || 2 < m.verbosity then some (.verbosity m.verbosity)
  else none

/-- Why a file does not give settings. -/
inductive LoadError where
  | unreadable (path : Text) (e : FileError)
  | malformed (path reason : Text)
  | unknownKeys (path : Text) (keys : List Toml.Key)
  | invalid (path : Text) (f : Fault)

namespace LoadError

/-- The wording of an error. -/
def message : LoadError → Text
  | unreadable path e => "cannot read " ++ path ++ ": " ++ e.message
  | malformed path reason => "parse error in " ++ path ++ ": " ++ reason
  | unknownKeys path keys =>
    "unknown keys in " ++ path ++ ": " ++ Text.join ", " (keys.map Toml.Key.display)
  | invalid path f => path ++ ": " ++ f.message

end LoadError

/-- The settings that the text of a file gives for a directory.  `refusal` has the words for a text
that cannot be read. -/
def ofText (refusal : Text → Text) (path dir text : Text) : Except LoadError Manifest :=
  match Toml.Document.parse? text with
  | none => .error (.malformed path (refusal text))
  | some doc => match readRoot {} doc.root with
    | none => .error (.malformed path (refusal text))
    | some m =>
      let unknown := doc.keys.filter (!isUsed doc.root ·)
      let m := withDefaults { m with dir }
      if !unknown.isEmpty then .error (.unknownKeys path unknown)
      else match m.fault? with
        | some f => .error (.invalid path f)
        | none => .ok m

/-! ### Paths -/

/-- A path of the settings as seen from their directory. -/
def resolve (m : Manifest) (p : Text) : Text :=
  if p.isEmpty || Path.isAbsolute p then p else Path.join m.dir p

/-- The program to compile. -/
def entryPath (m : Manifest) : Text := m.resolve m.entry

/-- The file for the assembly. -/
def asmPath (m : Manifest) : Text := m.resolve m.asm

/-- The file for the image. -/
def imagePath (m : Manifest) : Text := m.resolve m.image

/-- The file for log messages. -/
def logPath (m : Manifest) : Text := m.resolve m.logFile

end Manifest

end Foolscap
