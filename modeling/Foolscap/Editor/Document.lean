import Foolscap.Compile
import Foolscap.Editor.Place
import Foolscap.Tree.Declaration

/-!
# Documents

A text in an editor together with what is known of it, and the way from a place in it to the
declaration of the name there.
-/

namespace Foolscap

/-- A text in an editor together with what is known of it. -/
structure Document where
  text : Text
  analysis : Analysis

namespace Document

/-- Analyse a text. -/
def ofText (text : Text) : Logged Document :=
  (analyse text).map fun analysis => ⟨text, analysis⟩

/-- The program of a document, unless its text is malformed. -/
def program? (d : Document) : Option Program := d.analysis.program

end Document

/-! ### From places to declarations -/

namespace Program

/-- The nodes around an offset, the innermost first.  Below a node that does not reach the offset
there is nothing to look for. -/
def enclosing (p : Program) (offset : Nat) : List Node :=
  ((p.walk fun n => n.span.contains offset).filter fun n => n.span.contains offset).reverse

/-- The declaration that an entry is the record of. -/
def declarationOf? (p : Program) (e : Option Entry) : Option Declaration :=
  e.bind fun e => p.declarationAt? e.site

/-- The declaration that a use of a name refers to. -/
def declarationOfUse? (p : Program) (u : Option Use) : Option Declaration :=
  p.declarationOf? (u.map Use.entry)

end Program

namespace Expr

/-- The declaration that a word means in an expression itself, apart from what is below it. -/
def meaning? (p : Program) (word : Text) : Expr → Option Declaration
  | id _ name use => if name = word then p.declarationOfUse? use else none
  | call _ name _ use => if name = word then p.declarationOfUse? use else none
  | new _ name _ entry => if name = word then p.declarationOf? entry else none
  | send _ receiver method _ use target =>
    if method = word then p.declarationOf? target
    else if receiver = word then p.declarationOfUse? use
    else none
  | _ => none

/-- The spans of the declarations that the names of an expression itself refer to. -/
def sites : Expr → List Span
  | id _ _ use => use.toList.map fun u => u.entry.site
  | call _ _ _ use => use.toList.map fun u => u.entry.site
  | new _ _ _ entry => entry.toList.map Entry.site
  | send _ _ _ _ use target =>
    use.toList.map (fun u => u.entry.site) ++ target.toList.map Entry.site
  | _ => []

end Expr

namespace Node

/-- The declaration that a word means in a node itself, apart from what is below it. -/
def meaning? (p : Program) (word : Text) : Node → Option Declaration
  | expr e => e.meaning? p word
  | cls c =>
    if c.name = word then some (.cls c)
    else if c.super = some word then p.declarationOf? c.superEntry
    else none
  | n => n.declaration?.filter fun d => d.name = word

/-- Whether a node uses the declaration with a given span. -/
def uses (site : Span) : Node → Bool
  | expr e => e.sites.contains site
  | _ => false

end Node

namespace Document

/-- The declaration of the name at a place.  The innermost node that knows the name decides; a name
that none knows, such as one in a type, can be that of a class. -/
def declarationAt? (d : Document) (place : Place) : Option Declaration := do
  let p ← d.program?
  let word := d.text.wordAt place
  if word.isEmpty then none
  else
    let nodes := p.enclosing (d.text.offsetAt place)
    match nodes.findSome? fun n => n.meaning? p word with
    | some found => some found
    | none => p.declarationOf? ((d.analysis.context.classes.get? word).map ClassInfo.entry)

/-- The spans of the nodes that use a declaration, in order. -/
def references (d : Document) (found : Declaration) : List Span :=
  match d.program? with
  | some p => (p.nodes.filter (Node.uses found.span)).map Node.span
  | none => []

end Document

end Foolscap
