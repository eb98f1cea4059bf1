import Foolscap.Editor.Document

/-!
# Completions

The words that a fragment can be completed to: the names declared anywhere in the document, and the
reserved words.
-/

namespace Foolscap

/-- What a word that is offered stands for. -/
inductive CompletionKind where
  | method | fn | field | value | cls | keyword
  deriving DecidableEq, Repr

namespace CompletionKind

/-- The number of a kind. -/
def code : CompletionKind → Nat
  | method => 2
  | fn => 3
  | field => 5
  | value => 6
  | cls => 7
  | keyword => 14

end CompletionKind

/-- A word that is offered. -/
structure Completion where
  label : Text
  kind : CompletionKind
  detail : Text
  deriving DecidableEq, Repr

namespace Completion

/-- The offer for a declared name. -/
def ofDeclaration : Declaration → Completion
  | .cls c => ⟨c.name, .cls, "class"⟩
  | .fn r => ⟨r.name, .fn, "fun " ++ r.signature.display⟩
  | .method m => ⟨m.routine.name, .method, "method " ++ m.routine.signature.display⟩
  | .field f => ⟨f.name, .field, "field " ++ f.annotation.ty.display⟩
  | .var v => ⟨v.name, .value, "var " ++ v.annotation.ty.display⟩
  | .par p => ⟨p.name, .value, "par " ++ p.annotation.ty.display⟩

/-- The offer for a reserved word. -/
def ofKeyword (k : TokenKind) : Completion := ⟨k.name, .keyword, "keyword"⟩

/-- Of the offers with one label, keep the first. -/
def firsts : List Completion → List Completion
  | [] => []
  | c :: cs => c :: (firsts cs).filter fun other => other.label ≠ c.label

/-- The offers in byte order of their labels. -/
def sorted (cs : List Completion) : List Completion :=
  cs.mergeSort fun a b => Text.before a.label b.label

end Completion

namespace Document

/-- Everything that a document can offer, declared names before reserved words. -/
def offers (d : Document) : List Completion :=
  let declared := match d.program? with
    | some p => p.declarations.map Completion.ofDeclaration
    | none => []
  declared ++ TokenKind.reserved.map Completion.ofKeyword

/-- The words that start with a fragment, in byte order.  The first declaration of a name decides
what it is shown as. -/
def complete (d : Document) (fragment : Text) : List Completion :=
  Completion.sorted (Completion.firsts (d.offers.filter fun c => fragment.isPrefixOf c.label))

end Document

end Foolscap
