import Foolscap.Context
import Foolscap.Diagnostic
import Foolscap.Tree

/-!
# Scopes

Name look-up.  Scopes are nested: the global one, then one for each class, function and method
around a place.  A use of a name denotes the entry in the innermost scope that has the name.
-/

namespace Foolscap

/-- The scopes around a place, innermost first, and the classes known there. -/
structure Scopes where
  tables : List (Table Entry)
  context : Context
  deriving Inhabited

/-- What the receiver and the method of a method call turn out to be. -/
inductive Reception where
  | undeclared
  | notObject (use : Use)
  | shapeless (use : Use)
  | noClass (use : Use) (cls : Text)
  | noMethod (use : Use) (cls : Text)
  | found (use : Use) (target : Entry)

namespace Reception

/-- What the receiver denotes. -/
def use? : Reception → Option Use
  | undeclared => none
  | notObject u | shapeless u | noClass u _ | noMethod u _ | found u _ => some u

/-- The method that is called. -/
def target? : Reception → Option Entry
  | found _ e => some e
  | _ => none

end Reception

namespace Scopes

/-- The nesting level of the innermost scope. -/
def level (s : Scopes) : Nat := s.tables.length - 1

/-- The entry in the innermost of some scopes that has a name. -/
def find? : List (Table Entry) → Text → Option Entry
  | [], _ => none
  | t :: ts, name => match t.get? name with
    | some e => some e
    | none => find? ts name

/-- The entry that a name denotes. -/
def entry? (s : Scopes) (name : Text) : Option Entry := find? s.tables name

/-- What a name denotes here. -/
def use? (s : Scopes) (name : Text) : Option Use :=
  (s.entry? name).map fun e => ⟨e, s.level⟩

/-- The class that a name denotes where an object is constructed. -/
def class? (s : Scopes) (name : Text) : Option Entry :=
  match s.entry? name with
  | some e => if e.kind = .cls && s.context.isClass name then some e else none
  | none => none

/-- What the receiver and the method of a method call denote: the receiver is looked up in the
scopes, the method among the members of the receiver's declared class. -/
def receive (s : Scopes) (receiver method : Text) : Reception :=
  match s.use? receiver with
  | none => .undeclared
  | some u => match u.entry.ty with
    | .missing (some .ref) => .shapeless u
    | .ref cls => match s.context.classes.get? cls with
      | none => .noClass u cls
      | some info => match info.members.get? method with
        | some e => if e.kind = .method then .found u e else .noMethod u cls
        | none => .noMethod u cls
    | _ => .notObject u

/-- Why the name at the top of an expression denotes nothing, if so. -/
def error? (s : Scopes) : Expr → Option ScopeError
  | .id _ name _ => if (s.entry? name).isSome then none else some (.noVariable name)
  | .call _ name _ _ => if (s.entry? name).isSome then none else some (.noFunction name)
  | .new _ name _ _ =>
    if (s.entry? name).isNone then some (.noClass name)
    else if (s.class? name).isNone then some (.notClass name)
    else none
  | .send _ receiver method _ _ _ => match s.receive receiver method with
    | .undeclared => some (.noObject receiver)
    | .notObject _ => some (.notObject receiver)
    | .noClass _ cls => some (.noClassOf cls receiver)
    | .noMethod _ cls => some (.noMethod receiver cls method)
    | .shapeless _ | .found _ _ => none
  | _ => none

/-- Whether the expression calls a method of an object whose class is unknown because the written
reference type is missing. -/
def isShapeless (s : Scopes) : Expr → Bool
  | .send _ receiver method _ _ _ => match s.receive receiver method with
    | .shapeless _ => true
    | _ => false
  | _ => false

/-- The classes that a type names and that are not known. -/
def unknownClasses (s : Scopes) (t : Ty) : List Text :=
  t.classNames.filter fun name => !s.context.isClass name

end Scopes

mutual

/-- An expression with what every name in it denotes. -/
def Expr.bind (s : Scopes) : Expr → Expr
  | .missing => .missing
  | .binary sp op l r => .binary sp op (l.bind s) (r.bind s)
  | .not sp e => .not sp (e.bind s)
  | .cond sp c t e => .cond sp (c.bind s) (t.bind s) (e.bind s)
  | .print sp e => .print sp (e.bind s)
  | .int sp n => .int sp n
  | .bool sp b => .bool sp b
  | .null sp => .null sp
  | .id sp name _ => .id sp name (s.use? name)
  | .call sp name as _ => .call sp name (bindAll s as) (s.use? name)
  | .new sp name as _ => .new sp name (bindAll s as) (s.class? name)
  | .send sp receiver method as _ _ =>
    .send sp receiver method (bindAll s as) (s.receive receiver method).use?
      (s.receive receiver method).target?

/-- Every expression of a list with what the names in it denote. -/
def bindAll (s : Scopes) : List Expr → List Expr
  | [] => []
  | e :: es => e.bind s :: bindAll s es

end

mutual

/-- An expression and all its parts that are expressions, in the order in which they are written;
missing ones are left out. -/
def Expr.parts : Expr → List Expr
  | .missing => []
  | .binary sp op l r => .binary sp op l r :: (l.parts ++ r.parts)
  | .not sp e => .not sp e :: e.parts
  | .cond sp c t e => .cond sp c t e :: (c.parts ++ t.parts ++ e.parts)
  | .print sp e => .print sp e :: e.parts
  | .int sp n => [.int sp n]
  | .bool sp b => [.bool sp b]
  | .null sp => [.null sp]
  | .id sp name u => [.id sp name u]
  | .call sp name as u => .call sp name as u :: allParts as
  | .new sp name as en => .new sp name as en :: allParts as
  | .send sp r m as u t => .send sp r m as u t :: allParts as

/-- The parts of every expression of a list. -/
def allParts : List Expr → List Expr
  | [] => []
  | e :: es => e.parts ++ allParts es

end

namespace Expr

/-- Where an expression starts. -/
def start (e : Expr) : Position := (e.span?.getD default).start

/-- The errors of the names used in an expression, in order. -/
def scopeErrors (s : Scopes) (e : Expr) : List Diagnostic :=
  e.parts.filterMap fun p => (s.error? p).map fun err => ⟨p.start, .scoping err⟩

end Expr

end Foolscap
