import Foolscap.Editor.Document

/-!
# Symbols

The outline of a document: its classes with their members, then its other declarations.
-/

namespace Foolscap

/-- What a line of the outline stands for. -/
inductive SymbolKind where
  | cls | method | field | fn | value
  deriving DecidableEq, Repr

namespace SymbolKind

/-- The number of a kind. -/
def code : SymbolKind → Nat
  | cls => 5
  | method => 6
  | field => 8
  | fn => 12
  | value => 13

end SymbolKind

/-- A line of the outline. -/
structure DocumentSymbol where
  name : Text
  detail : Text
  kind : SymbolKind
  range : Range
  deriving DecidableEq, Repr

/-- A line of the outline with those below it. -/
structure Outline where
  symbol : DocumentSymbol
  children : List DocumentSymbol := []
  deriving DecidableEq, Repr

namespace Outline

/-- The line for a field. -/
def ofField (f : Field) : DocumentSymbol :=
  ⟨f.name, f.annotation.ty.display, .field, Range.ofSpan f.span⟩

/-- The line for a method. -/
def ofMethod (m : Method) : DocumentSymbol :=
  ⟨m.routine.name, m.routine.signature.display, .method, Range.ofSpan m.routine.span⟩

/-- The outline of a class. -/
def ofClass (c : ClassDecl) : Outline :=
  ⟨⟨c.name, "class", .cls, Range.ofSpan c.span⟩, c.fields.map ofField ++ c.methods.map ofMethod⟩

/-- The outline of another declaration; a class among them has none. -/
def ofDecl? : Decl → Option Outline
  | .fn r => some ⟨⟨r.name, r.signature.display, .fn, Range.ofSpan r.span⟩, []⟩
  | .var v => some ⟨⟨v.name, v.annotation.ty.display, .value, Range.ofSpan v.span⟩, []⟩
  | .cls _ => none

end Outline

namespace Document

/-- The outline of a document. -/
def symbols (d : Document) : List Outline :=
  match d.program? with
  | some p => p.classes.map Outline.ofClass ++ p.decls.filterMap Outline.ofDecl?
  | none => []

end Document

end Foolscap
