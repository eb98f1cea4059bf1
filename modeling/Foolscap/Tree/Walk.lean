import Foolscap.Tree

/-!
# Walking over a tree

The nodes of a tree in the order in which they are written.  Types in annotations are no nodes, nor
are missing expressions.
-/

namespace Foolscap

/-- A part of a tree. -/
inductive Node where
  | program (p : Program)
  | cls (c : ClassDecl)
  | field (f : Field)
  | method (m : Method)
  | fn (r : Routine)
  | var (v : VarDecl)
  | par (p : Param)
  | expr (e : Expr)

namespace Node

/-- The span of a node. -/
def span : Node → Span
  | program p => p.span
  | cls c => c.span
  | field f => f.span
  | method m => m.routine.span
  | fn r => r.span
  | var v => v.span
  | par p => p.span
  | expr e => e.span?.getD default

end Node

/-- A node, and what is below it if the test says so. -/
def Node.under (descend : Node → Bool) (n : Node) (below : List Node) : List Node :=
  n :: if descend n then below else []

mutual

/-- The nodes of an expression. -/
def Expr.walk (descend : Node → Bool) : Expr → List Node
  | .missing => []
  | .binary s op l r =>
    Node.under descend (.expr (.binary s op l r)) (l.walk descend ++ r.walk descend)
  | .not s e => Node.under descend (.expr (.not s e)) (e.walk descend)
  | .cond s c t e =>
    Node.under descend (.expr (.cond s c t e))
      (c.walk descend ++ t.walk descend ++ e.walk descend)
  | .print s e => Node.under descend (.expr (.print s e)) (e.walk descend)
  | .int s n => [.expr (.int s n)]
  | .bool s b => [.expr (.bool s b)]
  | .null s => [.expr (.null s)]
  | .id s n u => [.expr (.id s n u)]
  | .call s n as u => Node.under descend (.expr (.call s n as u)) (walkArgs descend as)
  | .new s n as en => Node.under descend (.expr (.new s n as en)) (walkArgs descend as)
  | .send s r m as u t => Node.under descend (.expr (.send s r m as u t)) (walkArgs descend as)

/-- The nodes of a list of arguments. -/
def walkArgs (descend : Node → Bool) : List Expr → List Node
  | [] => []
  | e :: es => e.walk descend ++ walkArgs descend es

end

mutual

/-- The nodes of a declaration. -/
def Decl.walk (descend : Node → Bool) : Decl → List Node
  | .var v => Node.under descend (.var v) (v.value.walk descend)
  | .fn r => Node.under descend (.fn r) (r.walkInside descend)
  | .cls c => c.walk descend

/-- The nodes inside a function or method. -/
def Routine.walkInside (descend : Node → Bool) : Routine → List Node
  | ⟨_, _, _, params, decls, body⟩ =>
    params.map Node.par ++ walkDecls descend decls ++ body.walk descend

/-- The nodes of a method. -/
def Method.walk (descend : Node → Bool) : Method → List Node
  | ⟨r, offset⟩ => Node.under descend (.method ⟨r, offset⟩) (r.walkInside descend)

/-- The nodes of a class. -/
def ClassDecl.walk (descend : Node → Bool) : ClassDecl → List Node
  | ⟨span, name, super, fields, methods, entry, superEntry⟩ =>
    Node.under descend (.cls ⟨span, name, super, fields, methods, entry, superEntry⟩)
      (fields.map Node.field ++ walkMethods descend methods)

/-- The nodes of a list of declarations. -/
def walkDecls (descend : Node → Bool) : List Decl → List Node
  | [] => []
  | d :: ds => d.walk descend ++ walkDecls descend ds

/-- The nodes of a list of methods. -/
def walkMethods (descend : Node → Bool) : List Method → List Node
  | [] => []
  | m :: ms => m.walk descend ++ walkMethods descend ms

end

/-- The nodes of a program, in order. -/
def Program.walk (descend : Node → Bool) (p : Program) : List Node :=
  Node.under descend (.program p)
    (p.classes.flatMap (ClassDecl.walk descend) ++ walkDecls descend p.decls ++
      p.body.walk descend)

/-- All nodes of a program. -/
def Program.nodes (p : Program) : List Node := p.walk fun _ => true

end Foolscap
