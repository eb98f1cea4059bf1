import Foolscap.Tree.Walk

/-!
# Declarations of a program

All places of a program where a name is declared, at any depth.

## Design Notes

No two declarations of a parsed program have the same span, so a span tells which one is meant.
-/

namespace Foolscap

/-- A place where a name is declared. -/
inductive Declaration where
  | cls (c : ClassDecl)
  | fn (r : Routine)
  | method (m : Method)
  | field (f : Field)
  | var (v : VarDecl)
  | par (p : Param)

namespace Declaration

/-- The declared name. -/
def name : Declaration → Text
  | cls c => c.name
  | fn r => r.name
  | method m => m.routine.name
  | field f => f.name
  | var v => v.name
  | par p => p.name

/-- The span of the declaration. -/
def span : Declaration → Span
  | cls c => c.span
  | fn r => r.span
  | method m => m.routine.span
  | field f => f.span
  | var v => v.span
  | par p => p.span

end Declaration

namespace Node

/-- A node as a declaration, if it is one. -/
def declaration? : Node → Option Declaration
  | cls c => some (.cls c)
  | fn r => some (.fn r)
  | method m => some (.method m)
  | field f => some (.field f)
  | var v => some (.var v)
  | par p => some (.par p)
  | program _ => none
  | expr _ => none

/-- The span of a declaration is that of its node. -/
theorem span_of_declaration? {n : Node} {d : Declaration} (h : n.declaration? = some d) :
    d.span = n.span := by
  cases n <;> simp only [declaration?, Option.some.injEq, reduceCtorEq] at h <;> subst h <;> rfl

end Node

namespace Program

/-- The declarations of a program, in the order of the walk. -/
def declarations (p : Program) : List Declaration := p.nodes.filterMap Node.declaration?

/-- The declaration with a given span. -/
def declarationAt? (p : Program) (site : Span) : Option Declaration :=
  p.declarations.find? fun d => d.span = site

end Program

end Foolscap
