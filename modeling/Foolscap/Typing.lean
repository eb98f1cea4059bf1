import Foolscap.Scope.Resolve

/-!
# Typing

Types of expressions and the checks on declarations, for programs whose names are resolved.  An
error ends the check of the expression or declaration it is in; the declarations after it are
checked all the same.

## Design Notes

A declaration with an incomplete type is skipped without an error.
-/

namespace Foolscap

/-- Why the check of an expression or declaration ended: it is ill-typed, a type in it is
incomplete, or the tree lacks something without which the check makes no sense. -/
inductive Halt where
  | ill (d : Diagnostic)
  | incomplete
  | broken

namespace Halt

/-- An ill-typed part at a place. -/
def illAt (pos : Position) (e : TypeError) : Halt := .ill ⟨pos, .typing e⟩

end Halt

namespace Typing

/-- Check an arithmetic operation. -/
def arithmetic (h : Hierarchy) (pos : Position) (op : BinaryOp) (l r : Ty) : Except Halt Ty :=
  if h.isSubtype l .int && h.isSubtype r .int then .ok .int
  else .error (.illAt pos (.notIntegers op.sign))

/-- Check a comparison. -/
def comparison (h : Hierarchy) (pos : Position) (op : BinaryOp) (l r : Ty) : Except Halt Ty :=
  if h.related l r then .ok .bool else .error (.illAt pos (.unrelatedOperands op.sign l r))

/-- Check a logical operation. -/
def logical (h : Hierarchy) (pos : Position) (op : BinaryOp) (l r : Ty) : Except Halt Ty :=
  if h.isSubtype l .bool && h.isSubtype r .bool then .ok .bool
  else .error (.illAt pos (.notBooleans op.sign))

/-- Check a binary operation whose operands have given types. -/
def operation (h : Hierarchy) (pos : Position) (op : BinaryOp) (l r : Ty) : Except Halt Ty :=
  match op with
  | .plus | .minus | .times | .div => arithmetic h pos op l r
  | .equal | .lessEqual | .greaterEqual => comparison h pos op l r
  | .and | .or => logical h pos op l r

/-- The type of an identifier used as a value.  Functions, methods and classes are no values. -/
def value (pos : Position) (name : Text) (e : Entry) : Except Halt Ty :=
  match e.kind with
  | .fn | .method => .error (.illAt pos (.functionAsValue name))
  | .cls => .error (.illAt pos (.classAsValue name))
  | _ => if e.ty.isComplete then .ok e.ty else .error .incomplete

/-- The parameter and result types of something that is called. -/
def callee (pos : Position) (notCallable : TypeError) : Ty → Except Halt (List Ty × Ty)
  | .arrow params ret =>
    if (Ty.arrow params ret).isComplete then .ok (params, ret) else .error .incomplete
  | .missing (some .arrow) => .error .incomplete
  | _ => .error (.illAt pos notCallable)

/-- The field types of a class that is instantiated. -/
def constructed (pos : Position) (name : Text) : Ty → Except Halt (List Ty)
  | .cls origin fields methods =>
    if (Ty.cls origin fields methods).isComplete then .ok fields else .error .incomplete
  | _ => .error (.illAt pos (.notClass name))

end Typing

open Typing in
mutual

/-- The type of an expression. -/
def Expr.typeOf (h : Hierarchy) : Expr → Except Halt Ty
  | .missing => .error .broken
  | .binary s op l r => do
    let lt ← l.typeOf h
    let rt ← r.typeOf h
    operation h s.start op lt rt
  | .not s e => do
    let t ← e.typeOf h
    if h.isSubtype t .bool then .ok .bool else .error (.illAt s.start .badNegation)
  | .cond s c t e => do
    let ct ← c.typeOf h
    if h.isSubtype ct .bool then do
      let tt ← t.typeOf h
      let et ← e.typeOf h
      match h.join? tt et with
      | some ty => .ok ty
      | none => .error (.illAt s.start (.unrelatedBranches tt et))
    else .error (.illAt s.start .badCondition)
  | .print _ e => e.typeOf h
  | .int _ _ => .ok .int
  | .bool _ _ => .ok .bool
  | .null _ => .ok .null
  | .id s name use => match use with
    | none => .error (.illAt s.start (.unresolvedIdentifier name))
    | some u => value s.start name u.entry
  | .call s name as use => match use with
    | none => .error (.illAt s.start (.unresolvedFunction name))
    | some u => do
      let (params, ret) ← callee s.start (.notFunction name) u.entry.ty
      if as.length = params.length then do
        checkArgs h (fun i => .badArgument i name) 1 as params
        .ok ret
      else .error (.illAt s.start (.badArity name as.length params.length))
  | .new s name as entry => match entry with
    | none => .error (.illAt s.start (.unresolvedClass name))
    | some e => do
      let fields ← constructed s.start name e.ty
      if as.length = fields.length then do
        checkArgs h (fun i => .badFieldArgument i name) 1 as fields
        .ok (.ref name)
      else .error (.illAt s.start (.badFieldArity name as.length fields.length))
  | .send s receiver method as _ target => match target with
    | none => .error (.illAt s.start (.unresolvedMethod receiver method))
    | some e => do
      let (params, ret) ← callee s.start (.notMethod receiver method) e.ty
      let name := receiver ++ "." ++ method
      if as.length = params.length then do
        checkArgs h (fun i => .badArgument i name) 1 as params
        .ok ret
      else .error (.illAt s.start (.badArity name as.length params.length))

/-- Check arguments against the types they must have, counting them from a number.  An argument of
the wrong type is reported at its own place. -/
def checkArgs (h : Hierarchy) (wrong : Nat → Ty → Ty → TypeError) :
    Nat → List Expr → List Ty → Except Halt Unit
  | _, [], _ => .ok ()
  | _, _ :: _, [] => .ok ()
  | i, e :: es, want :: wants => do
    let got ← e.typeOf h
    if h.isSubtype got want then checkArgs h wrong (i + 1) es wants
    else .error (.illAt e.start (wrong i got want))

end

namespace Typing

/-- What ended the check, if anything. -/
def halts {α : Type} : Except Halt α → List Halt
  | .ok _ => []
  | .error e => [e]

/-- Check that an expression has a type below the one wanted. -/
def conforms (h : Hierarchy) (e : Expr) (want : Ty) (wrong : Ty → Halt) : List Halt :=
  match e.typeOf h with
  | .error e => [e]
  | .ok got => if h.isSubtype got want then [] else [wrong got]

/-- Check a variable. -/
def var (h : Hierarchy) (v : VarDecl) : List Halt :=
  if v.annotation.ty.isComplete then
    conforms h v.value v.annotation.ty fun got =>
      .illAt v.span.start (.badValue v.name got v.annotation.ty)
  else [.incomplete]

/-- Check that the member at a position of a class refines the one of its superclass there, if there
is one.  A position that is none of the class breaks the check. -/
def refinesAt (h : Hierarchy) (own super : List Ty) (position : Int) (wrong : Ty → Ty → Halt) :
    List Halt :=
  if position < super.length then
    if position < 0 then [.broken]
    else match own[position.toNat]?, super[position.toNat]? with
      | some got, some want => if h.isSubtype got want then [] else [wrong got want]
      | _, _ => [.broken]
  else []

/-- Check that a field refines the one of the superclass at the same position. -/
def refinesField (h : Hierarchy) (cls : Text) (own super : List Ty) (f : Field) : List Halt :=
  refinesAt h own super (Frame.fieldPosition f.offset) fun got want =>
    .illAt f.span.start (.badField f.name cls got want)

/-- Check that a method refines the one of the superclass in the same slot. -/
def refinesMethod (h : Hierarchy) (cls : Text) (own super : List Ty) (m : Method) : List Halt :=
  refinesAt h own super m.offset fun got want =>
    .illAt m.routine.span.start (.badOverride m.routine.name cls got want)

/-- Check the members that a class redeclares against its superclass. -/
def refines (h : Hierarchy) (cls : Text) (fields : List Field) (methods : List Method)
    (entry superEntry : Option Entry) : List Halt :=
  match superEntry with
  | none => []
  | some s => match entry.map Entry.ty, s.ty with
    | some (.cls _ ownFields ownMethods), .cls _ superFields superMethods =>
      fields.flatMap (refinesField h cls ownFields superFields) ++
        methods.flatMap (refinesMethod h cls ownMethods superMethods)
    | _, _ => [.incomplete]

end Typing

mutual

/-- Check a declaration. -/
def Decl.check (h : Hierarchy) : Decl → List Halt
  | .var v => Typing.var h v
  | .fn r => r.check h false
  | .cls c => c.check h

/-- Check the local declarations of a function or method, and its body against the declared result
type. -/
def Routine.check (h : Hierarchy) (isMethod : Bool) : Routine → List Halt
  | ⟨span, name, ret, params, decls, body⟩ =>
    if (Routine.signature ⟨span, name, ret, params, decls, body⟩).isComplete then
      checkDecls h decls ++ Typing.conforms h body ret.ty fun got =>
        .illAt span.start (.badReturn isMethod name got ret.ty)
    else [.incomplete]

/-- Check a class: its methods, and the members that it redeclares. -/
def ClassDecl.check (h : Hierarchy) : ClassDecl → List Halt
  | ⟨_, name, _, fields, methods, entry, superEntry⟩ =>
    checkMethods h methods ++ Typing.refines h name fields methods entry superEntry

/-- Check a list of declarations. -/
def checkDecls (h : Hierarchy) : List Decl → List Halt
  | [] => []
  | d :: ds => d.check h ++ checkDecls h ds

/-- Check a list of methods. -/
def checkMethods (h : Hierarchy) : List Method → List Halt
  | [] => []
  | ⟨r, _⟩ :: ms => r.check h true ++ checkMethods h ms

end

/-- The outcome of checking a program: the type of its body unless that is ill-typed, the errors,
the number of declarations skipped for an incomplete type, and whether the tree makes no sense. -/
structure Checked where
  ty : Option Ty
  errors : List Diagnostic
  skipped : Nat
  broken : Bool

namespace Typing

/-- The errors among the reasons why checks ended. -/
def errors : List Halt → List Diagnostic
  | [] => []
  | .ill d :: hs => d :: errors hs
  | _ :: hs => errors hs

/-- How many checks were skipped before anything broke. -/
def skipped : List Halt → Nat
  | [] => 0
  | .incomplete :: hs => skipped hs + 1
  | .ill _ :: hs => skipped hs
  | .broken :: _ => 0

/-- Whether a check broke off because the tree makes no sense. -/
def anyBroken : List Halt → Bool
  | [] => false
  | .broken :: _ => true
  | _ :: hs => anyBroken hs

end Typing

/-- Check a resolved program. -/
def Program.check (h : Hierarchy) (p : Program) : Checked :=
  let body := p.body.typeOf h
  let halts := p.classes.flatMap (ClassDecl.check h) ++ checkDecls h p.decls ++ Typing.halts body
  ⟨body.toOption, Typing.errors halts, Typing.skipped halts, Typing.anyBroken halts⟩

end Foolscap
