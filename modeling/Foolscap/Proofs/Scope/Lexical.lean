import Foolscap.Scope.Resolve

/-!
# Lexical scoping

What a name denotes, told from the text of a program alone.  Around every place there are nested
scopes: one for each function, method and class body, and the global one.  A name denotes what the
innermost scope holds under it, and a scope holds the first declaration of the name.

## Design Notes

A scope is a function from names to declarations, so that the scope of a class, in which inherited
members stand behind its own, is one like any other.  The scope of a function grows from one
declaration to the next, and every use sees the scope as it is there.
-/

namespace Foolscap

/-! ### Declarations -/

/-- A declaration that a name can denote. -/
structure Naming where
  name : Text
  kind : EntryKind
  site : Span
  deriving DecidableEq

def Param.naming (p : Param) : Naming := ⟨p.name, .par, p.span⟩

def Field.naming (f : Field) : Naming := ⟨f.name, .field, f.span⟩

def Method.naming (m : Method) : Naming := ⟨m.routine.name, .method, m.routine.span⟩

def ClassDecl.naming (c : ClassDecl) : Naming := ⟨c.name, .cls, c.span⟩

def Decl.naming : Decl → Naming
  | .var v => ⟨v.name, .var, v.span⟩
  | .fn r => ⟨r.name, .fn, r.span⟩
  | .cls c => c.naming

/-! ### Scopes -/

namespace Lexical

/-- What a scope holds under each name. -/
abbrev Scope := Text → Option Naming

/-- The scope of some declarations: the first declaration of a name counts. -/
def firstOf (bs : List Naming) : Scope := fun name => bs.find? fun b => b.name = name

/-- A member that a class declares and one that it inherits under the same name.  A class may
redeclare a member as one of the same kind; any other redeclaration does not count. -/
def atop : Option Naming → Option Naming → Option Naming
  | some own, some inherited => if own.kind = inherited.kind then some own else some inherited
  | some own, none => some own
  | none, inherited => inherited

/-- The scope of a class that inherits some members. -/
def ownOver (c : ClassDecl) (inherited : Scope) : Scope := fun name =>
  atop (firstOf (c.fields.map Field.naming ++ c.methods.map Method.naming) name) (inherited name)

/-- The members of the class of a name, given the classes declared so far, the last one first.  The
first class of the name counts, and its superclass is declared before it. -/
def membersOf : List ClassDecl → Text → Scope
  | [], _ => fun _ => none
  | c :: earlier, cls =>
    if c.name = cls ∧ ∀ d ∈ earlier, d.name ≠ cls then
      ownOver c (match c.super with
        | some super => membersOf earlier super
        | none => fun _ => none)
    else membersOf earlier cls

/-- The members that a class inherits, given the classes declared before it. -/
def inheritedBy (earlier : List ClassDecl) (c : ClassDecl) : Scope :=
  match c.super with
  | some super => membersOf earlier super
  | none => fun _ => none

/-- What a name denotes among nested scopes, the innermost one first, and the number of scopes
around the one that holds it. -/
def denoted? : List Scope → Text → Option (Naming × Nat)
  | [], _ => none
  | scope :: outer, name => match scope name with
    | some b => some (b, outer.length)
    | none => denoted? outer name

end Lexical

open Lexical

/-! ### Uses of names -/

/-- What a name is used as. -/
inductive Role where
  | variable | callee | receiver
  deriving DecidableEq

/-- The error of a use that denotes nothing. -/
def Role.undeclared : Role → Text → ScopeError
  | .variable => .noVariable
  | .callee => .noFunction
  | .receiver => .noObject

/-- A use of a name, and the scopes around it, the innermost one first. -/
structure Occurrence where
  role : Role
  name : Text
  place : Position
  around : List Scope

namespace Occurrence

/-- What the name denotes, and at which level it is declared. -/
def denoted? (o : Occurrence) : Option (Naming × Nat) := Lexical.denoted? o.around o.name

/-- The number of function, method and class bodies around the use: one for every scope but the
global one. -/
def level (o : Occurrence) : Nat := o.around.length - 1

/-- The diagnostic of a use that denotes nothing. -/
def diagnostic (o : Occurrence) : Diagnostic := ⟨o.place, .scoping (o.role.undeclared o.name)⟩

end Occurrence

/-- The use of a name at the top of an expression. -/
def Expr.occurrence? (around : List Scope) (e : Expr) : Option Occurrence :=
  match e with
  | .id _ name _ => some ⟨.variable, name, e.start, around⟩
  | .call _ name _ _ => some ⟨.callee, name, e.start, around⟩
  | .send _ receiver _ _ _ _ => some ⟨.receiver, receiver, e.start, around⟩
  | _ => none

/-- The uses of names in an expression, in order. -/
def Expr.occurrences (around : List Scope) (e : Expr) : List Occurrence :=
  e.parts.filterMap (Expr.occurrence? around)

mutual

/-- The uses of names in a declaration, given the declarations before it in its scope and the scopes
around that one.  The value of a variable does not see the variable, the body of a function sees the
function.  Classes are declared at the top of a program only. -/
def Decl.occurrences (before : List Naming) (outer : List Scope) : Decl → List Occurrence
  | .var v => v.value.occurrences (firstOf before :: outer)
  | .fn r => r.occurrences (firstOf (before ++ [⟨r.name, .fn, r.span⟩]) :: outer)
  | .cls _ => []

/-- The uses of names in a function or method.  Parameters come first in its scope. -/
def Routine.occurrences (around : List Scope) : Routine → List Occurrence
  | ⟨_, _, _, params, decls, body⟩ =>
    let params := params.map Param.naming
    occurrencesAfter params around decls ++
      body.occurrences (firstOf (params ++ decls.map Decl.naming) :: around)

/-- The uses of names in declarations that stand one after the other in a scope. -/
def occurrencesAfter (before : List Naming) (outer : List Scope) : List Decl → List Occurrence
  | [] => []
  | d :: ds => d.occurrences before outer ++ occurrencesAfter (before ++ [d.naming]) outer ds

end

/-- The scope of classes, given the last one first. -/
def globalScope (classes : List ClassDecl) : Scope :=
  firstOf (classes.reverse.map ClassDecl.naming)

/-- The uses of names in a class, given the classes declared before it, the last one first.  Every
method sees all members and the class itself. -/
def ClassDecl.occurrences (earlier : List ClassDecl) (c : ClassDecl) : List Occurrence :=
  c.methods.flatMap fun m =>
    m.routine.occurrences [ownOver c (inheritedBy earlier c), globalScope (c :: earlier)]

/-- The uses of names in classes that stand one after the other. -/
def classOccurrences (earlier : List ClassDecl) : List ClassDecl → List Occurrence
  | [] => []
  | c :: cs => c.occurrences earlier ++ classOccurrences (c :: earlier) cs

/-- The uses of names in a program, in the order in which they are written. -/
def Program.occurrences (p : Program) : List Occurrence :=
  let classes := p.classes.map ClassDecl.naming
  classOccurrences [] p.classes ++ occurrencesAfter classes [] p.decls ++
    p.body.occurrences [firstOf (classes ++ p.decls.map Decl.naming)]

/-! ### Bound names -/

/-- A use of a name as a tree has it: with the entry it is bound to, if any. -/
structure Named where
  role : Role
  name : Text
  place : Position
  use : Option Use

/-- The use of a name at the top of an expression. -/
def Expr.named? (e : Expr) : Option Named :=
  match e with
  | .id _ name u => some ⟨.variable, name, e.start, u⟩
  | .call _ name _ u => some ⟨.callee, name, e.start, u⟩
  | .send _ receiver _ _ u _ => some ⟨.receiver, receiver, e.start, u⟩
  | _ => none

/-- The uses of names in an expression, in order. -/
def Expr.named (e : Expr) : List Named := e.parts.filterMap Expr.named?

mutual

/-- The uses of names in a declaration, in order. -/
def Decl.named : Decl → List Named
  | .var v => v.value.named
  | .fn r => r.named
  | .cls c => c.named

/-- The uses of names in a function or method, in order. -/
def Routine.named : Routine → List Named
  | ⟨_, _, _, _, decls, body⟩ => namedIn decls ++ body.named

/-- The uses of names in a class, in order. -/
def ClassDecl.named : ClassDecl → List Named
  | ⟨_, _, _, _, methods, _, _⟩ => namedInMethods methods

/-- The uses of names in declarations, in order. -/
def namedIn : List Decl → List Named
  | [] => []
  | d :: ds => d.named ++ namedIn ds

/-- The uses of names in methods, in order. -/
def namedInMethods : List Method → List Named
  | [] => []
  | ⟨r, _⟩ :: ms => r.named ++ namedInMethods ms

end

/-- The uses of names in a program, in order. -/
def Program.named (p : Program) : List Named :=
  p.classes.flatMap ClassDecl.named ++ namedIn p.decls ++ p.body.named

/-- A use of a name is bound to the entry of the declaration that it denotes, or to nothing if it
denotes nothing. -/
structure Occurrence.BoundAs (o : Occurrence) (n : Named) : Prop where
  role : n.role = o.role
  name : n.name = o.name
  place : n.place = o.place
  unbound : o.denoted? = none → n.use = none
  bound : ∀ b level, o.denoted? = some (b, level) →
    ∃ u, n.use = some u ∧ u.entry.kind = b.kind ∧ u.entry.site = b.site ∧
      u.entry.level = level ∧ u.level = o.level ∧ level + u.hops = o.level

/-- Whether a diagnostic tells that the use of a variable, function or object denotes nothing. -/
def Diagnostic.isUndeclared (d : Diagnostic) : Bool :=
  match d.cause with
  | .scoping (.noVariable _) | .scoping (.noFunction _) | .scoping (.noObject _) => true
  | _ => false

end Foolscap
