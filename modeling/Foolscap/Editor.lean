import Foolscap.Editor.Completion
import Foolscap.Editor.Hover
import Foolscap.Editor.Symbol

/-!
# Serving editors

The documents that an editor has open, and the answers to what it asks about them.  Every change
brings the whole text anew.
-/

namespace Foolscap

/-- What is offered to an editor. -/
structure Capabilities where
  name : Text := "fool-lsp"
  version : Text := "0.1.0"
  openClose : Bool := true
  syncKind : Nat := 1
  triggers : List Text := ["."]
  hover : Bool := true
  definition : Bool := true
  references : Bool := true
  symbols : Bool := true
  deriving DecidableEq, Repr

/-- The errors of a document, as they are told to an editor. -/
structure Notice where
  uri : Text
  diagnostics : List Diagnostic

/-- A change of a document.  One that is partial gives the text of some range only. -/
structure Change where
  text : Text
  isPartial : Bool := false
  deriving DecidableEq, Repr

/-- A range of a document. -/
structure Location where
  uri : Text
  range : Range
  deriving DecidableEq, Repr

/-- The open documents. -/
structure Editor where
  documents : Table Document := []

namespace Editor

/-- A message about serving an editor. -/
def logLine (severity : Severity) (t : Text) : LogLine := ⟨severity, .editor, t⟩

/-- The number by which every diagnostic is an error. -/
def errorSeverity : Nat := 1

/-- Greet an editor. -/
def greet : Logged Capabilities := ⟨{}, [logLine .info "FOOL LSP initializing"]⟩

/-! ### What an editor tells -/

/-- Take a text for a document. -/
def update (s : Editor) (uri text : Text) : Logged (Notice × Editor) :=
  (Document.ofText text).bind fun d =>
    let errors := d.analysis.errors
    ⟨(⟨uri, errors⟩, { s with documents := s.documents.put uri d }),
      [logLine .debug (uri ++ ": " ++ Text.ofNat errors.length ++ " diagnostics")]⟩

/-- Change a document.  The last change counts, and only if it gives the whole text. -/
def change (s : Editor) (uri : Text) (changes : List Change) :
    Logged (Option Notice × Editor) :=
  match changes.getLast? with
  | some c =>
    if c.isPartial then ⟨(none, s), []⟩
    else (s.update uri c.text).map fun (notice, s) => (some notice, s)
  | none => ⟨(none, s), []⟩

/-- Close a document; its errors are no longer shown. -/
def close (s : Editor) (uri : Text) : Notice × Editor :=
  (⟨uri, []⟩, { s with documents := s.documents.erase uri })

/-! ### What an editor asks -/

/-- The words that can be completed at a place. -/
def completions (s : Editor) (uri : Text) (place : Place) : List Completion :=
  match s.documents.get? uri with
  | some d =>
    let fragment := d.text.fragmentAt place
    if fragment.isEmpty then [] else d.complete fragment
  | none => []

/-- What to show for the name at a place. -/
def hover? (s : Editor) (uri : Text) (place : Place) : Option Text :=
  (s.documents.get? uri).bind fun d => d.hover? place

/-- The declaration of the name at a place. -/
def definition? (s : Editor) (uri : Text) (place : Place) : Option Location :=
  (s.documents.get? uri).bind fun d =>
    (d.declarationAt? place).map fun found => ⟨uri, Range.ofSpan found.span⟩

/-- The uses of the name at a place, after its declaration if that is wanted. -/
def references (s : Editor) (uri : Text) (place : Place) (withDeclaration : Bool) :
    List Location :=
  match s.documents.get? uri with
  | none => []
  | some d => match d.declarationAt? place with
    | none => []
    | some found =>
      let spans := (if withDeclaration then [found.span] else []) ++ d.references found
      spans.map fun span => ⟨uri, Range.ofSpan span⟩

/-- The outline of a document. -/
def symbols (s : Editor) (uri : Text) : List Outline :=
  match s.documents.get? uri with
  | some d => d.symbols
  | none => []

end Editor

end Foolscap
