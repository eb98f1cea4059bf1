import Foolscap.Tree

/-!
# Outlines

A tree as indented text, one line for each part.  Names that have been resolved show their entries.
-/

namespace Foolscap

namespace Outline

/-- A line at a depth: two blanks for each level. -/
def line (depth : Nat) (t : Text) : Text :=
  List.replicate (2 * depth) 32 ++ t ++ [Text.newline]

/-- What follows a resolved name. -/
def resolved : Option Use → Text
  | none => []
  | some u => " at nestinglevel " ++ Text.ofNat u.level ++ " [" ++ u.entry.display ++ "]"

/-- The word for an operator. -/
def operator : BinaryOp → Text
  | .plus => "Plus"
  | .minus => "Minus"
  | .times => "Times"
  | .div => "Div"
  | .equal => "Equal"
  | .lessEqual => "LessEqual"
  | .greaterEqual => "GreaterEqual"
  | .and => "And"
  | .or => "Or"

/-- The line of a parameter. -/
def param (depth : Nat) (p : Param) : Text :=
  line depth ("Par: " ++ p.name ++ " " ++ p.annotation.ty.display)

/-- The line of a field. -/
def field (depth : Nat) (f : Field) : Text :=
  line depth ("Field: " ++ f.name ++ " " ++ f.annotation.ty.display ++ " offset " ++
    Text.ofInt f.offset)

mutual

/-- The outline of an expression. -/
def expr (depth : Nat) : Expr → Text
  | .missing => line depth "<nil>"
  | .binary _ op l r =>
    line depth (operator op) ++ expr (depth + 1) l ++ expr (depth + 1) r
  | .not _ e => line depth "Not" ++ expr (depth + 1) e
  | .cond _ c t e =>
    line depth "If" ++ expr (depth + 1) c ++ expr (depth + 1) t ++ expr (depth + 1) e
  | .print _ e => line depth "Print" ++ expr (depth + 1) e
  | .int _ n => line depth ("Int: " ++ Text.ofWord n)
  | .bool _ b => line depth (if b then "Bool: true" else "Bool: false")
  | .null _ => line depth "Empty"
  | .id _ name use => line depth ("Id: " ++ name ++ resolved use)
  | .call _ name as use =>
    line depth ("Call: " ++ name ++ resolved use) ++ args (depth + 1) as
  | .new _ name as entry =>
    let shown : Text := match entry with
      | none => []
      | some e => " [" ++ e.display ++ "]"
    line depth ("New: " ++ name ++ shown) ++ args (depth + 1) as
  | .send _ receiver method as use target =>
    let shown : Text := match target with
      | none => []
      | some e => line (depth + 1) ("Method entry [" ++ e.display ++ "]")
    line depth ("ClassCall: " ++ receiver ++ "." ++ method ++ resolved use) ++ shown ++
      args (depth + 1) as

/-- The outlines of arguments. -/
def args (depth : Nat) : List Expr → Text
  | [] => []
  | e :: es => expr depth e ++ args depth es

end

mutual

/-- The outline of a declaration. -/
def decl (depth : Nat) : Decl → Text
  | .var v =>
    line depth ("Var: " ++ v.name ++ " " ++ v.annotation.ty.display) ++ expr (depth + 1) v.value
  | .fn r =>
    line depth ("Fun: " ++ r.name ++ " " ++ r.signature.display) ++ inside (depth + 1) r
  | .cls c => cls depth c

/-- The outline of what is inside a function or method. -/
def inside (depth : Nat) : Routine → Text
  | ⟨_, _, _, params, ds, body⟩ =>
    params.flatMap (param depth) ++ decls depth ds ++ expr depth body

/-- The outline of a method. -/
def method (depth : Nat) : Method → Text
  | ⟨r, offset⟩ =>
    line depth ("Method: " ++ r.name ++ " " ++ r.signature.display ++ " offset " ++
      Text.ofInt offset) ++ inside (depth + 1) r

/-- The outline of a class. -/
def cls (depth : Nat) : ClassDecl → Text
  | ⟨_, name, super, fields, ms, _, _⟩ =>
    let shown : Text := match super with
      | none => []
      | some s => " extends " ++ s
    line depth ("Class: " ++ name ++ shown) ++ fields.flatMap (field (depth + 1)) ++
      methods (depth + 1) ms

/-- The outlines of declarations. -/
def decls (depth : Nat) : List Decl → Text
  | [] => []
  | d :: ds => decl depth d ++ decls depth ds

/-- The outlines of methods. -/
def methods (depth : Nat) : List Method → Text
  | [] => []
  | m :: ms => method depth m ++ methods depth ms

end

end Outline

/-- The outline of a program. -/
def Program.outline (p : Program) : Text :=
  Outline.line 0 (if p.hasLet then "ProgLetIn" else "Prog") ++
    p.classes.flatMap (Outline.cls 1) ++ Outline.decls 1 p.decls ++ Outline.expr 1 p.body

end Foolscap
