import Foolscap.Editor.Document

/-!
# Hover texts

What an editor shows for the name at a place: its declaration, and for a class its layout.
-/

namespace Foolscap

namespace Hover

/-- A word in bold, a name, and its type. -/
def typed (word name : Text) (t : Ty) : Text :=
  "**" ++ word ++ "** `" ++ name ++ "`: " ++ t.display

/-- The end of a paragraph. -/
def gap : Text := "\n\n"

/-- A line for a member of a class. -/
def memberLine (name : Text) (e : Entry) : Text :=
  "- `" ++ Text.ofInt e.offset ++ "` " ++ name ++ ": " ++ e.ty.display

/-- A list of the members of one kind, under a heading. -/
def memberList (heading : Text) (kind : EntryKind) (members : Table Entry) : Text :=
  match members.filter fun (_, e) => e.kind = kind with
  | [] => []
  | ms => heading ++ [Text.newline] ++
      Text.join [Text.newline] (ms.map fun (name, e) => memberLine name e) ++ gap

/-- The superclasses of a class, from the top down to the class. -/
def hierarchy (name : Text) : List Text → Text
  | [] => []
  | supers => "**Hierarchy:** " ++ Text.join " → " supers.reverse ++ " → **" ++ name ++ "**"

/-- The layout of the objects and of the dispatch table of a class. -/
def layout (context : Context) (c : ClassDecl) : Text :=
  let extending : Text := match c.super with
    | some super => " extends " ++ super
    | none => []
  let title := "**class " ++ c.name ++ "**" ++ extending ++ gap
  match context.classes.get? c.name with
  | none => title
  | some info => title ++ memberList "Fields:" .field info.members ++
      memberList "Methods:" .method info.members ++
      hierarchy c.name (context.supers.superclasses c.name)

end Hover

namespace Declaration

/-- The text for a declaration. -/
def hover (context : Context) : Declaration → Text
  | cls c => Hover.layout context c
  | fn r => Hover.typed "fun" r.name r.signature
  | method m => Hover.typed "method" m.routine.name m.routine.signature ++ Hover.gap ++
      "dispatch offset " ++ Text.ofInt m.offset
  | field f => Hover.typed "field" f.name f.annotation.ty ++ Hover.gap ++
      "object offset " ++ Text.ofInt f.offset
  | var v => Hover.typed "var" v.name v.annotation.ty
  | par p => Hover.typed "par" p.name p.annotation.ty

end Declaration

namespace Document

/-- The text for the name at a place. -/
def hover? (d : Document) (place : Place) : Option Text :=
  (d.declarationAt? place).map (Declaration.hover d.analysis.context)

end Document

end Foolscap
