import Foolscap.Scope

/-!
# Resolving names

One walk over a program resolves every name, gives every declaration its place in a frame, object
or dispatch table, and records the classes in the context.

An activation record holds, from higher to lower addresses, the control link, the parameters from
the last to the first, the access link that the frame pointer addresses, the return address, and
the local declarations.  So parameters have the offsets 1, 2, … and locals -2, -3, …  In an object
the dispatch pointer is last and its fields have the offsets -1, -2, … before it; methods have the
slots 0, 1, … of the dispatch table.  Inherited members keep their places.

## Design Notes

A class name is declared before its members are laid out and its members before any method body is
resolved, so types may mention the class itself and methods may call each other.  The walk goes on
after an error; the first declaration of a name stays.

A new member comes after those that are there, so no counter of offsets is kept: the length of the
list of fields or methods says which comes next.  The two never differ, since a list only grows with
a new member of its kind.
-/

namespace Foolscap

/-! ### Frame layout -/

namespace Frame

/-- The offset of the first local declaration. -/
def firstLocal : Int := -2

/-- The offset of the first parameter. -/
def firstParam : Int := 1

/-- The offset of the field at a position of a class. -/
def fieldOffset (position : Nat) : Int := -1 - position

/-- The position of the field at an offset; negative for an offset that no field has. -/
def fieldPosition (offset : Int) : Int := -1 - offset

/-- The slot of the method at a position of a class. -/
def methodOffset (position : Nat) : Int := position

end Frame

/-! ### State of the walk -/

/-- What a class came to have: shown in logs. -/
structure ClassNote where
  name : Text
  fields : Nat
  methods : Nat
  deriving DecidableEq, Repr

/-- The state of the walk: the scopes around the current place, the offset of the next local
declaration, and what was found so far.  `broken` tells that the tree lacks something without which
the walk makes no sense. -/
structure Resolver where
  scopes : Scopes
  nextLocal : Int := Frame.firstLocal
  errors : List Diagnostic := []
  notes : List ClassNote := []
  broken : Bool := false
  deriving Inhabited

namespace Resolver

/-- The nesting level of the current place. -/
def level (r : Resolver) : Nat := r.scopes.level

/-- Record an error at a place. -/
def report (r : Resolver) (pos : Position) (e : ScopeError) : Resolver :=
  { r with errors := r.errors ++ [⟨pos, .scoping e⟩] }

/-- Record that the tree makes no sense. -/
def breakIf (r : Resolver) (b : Bool) : Resolver := { r with broken := r.broken || b }

/-- Take the next local offset.  Every declaration takes one, also one whose name is taken, because
a value is pushed for each of them. -/
def takeLocal (r : Resolver) : Int × Resolver :=
  (r.nextLocal, { r with nextLocal := r.nextLocal - 1 })

/-- Install or replace an entry in the innermost scope. -/
def install (r : Resolver) (name : Text) (e : Entry) : Resolver :=
  match r.scopes.tables with
  | t :: ts => { r with scopes := { r.scopes with tables := t.put name e :: ts } }
  | [] => r

/-- Whether the innermost scope has a name. -/
def taken (r : Resolver) (name : Text) : Bool :=
  match r.scopes.tables with
  | t :: _ => t.has name
  | [] => false

/-- Declare a name in the innermost scope, unless it is taken. -/
def declare (r : Resolver) (pos : Position) (what : Declared) (name : Text) (e : Entry) :
    Resolver :=
  if r.taken name then r.report pos (.redeclared what name) else r.install name e

/-- Enter a scope. -/
def enter (r : Resolver) (table : Table Entry) : Resolver :=
  { r with
    scopes := { r.scopes with tables := table :: r.scopes.tables }
    nextLocal := Frame.firstLocal }

/-- Leave the innermost scope and go on with the local offsets of the one around it. -/
def leave (r : Resolver) (outerLocal : Int) : Resolver :=
  { r with
    scopes := { r.scopes with tables := r.scopes.tables.tail }
    nextLocal := outerLocal }

/-- Report the classes that a type names and that are not known. -/
def checkNames (r : Resolver) (pos : Position) (t : Ty) : Resolver :=
  (r.scopes.unknownClasses t).foldl (fun r name => r.report pos (.noClass name)) r

/-- Resolve the names in an expression. -/
def expr (r : Resolver) (e : Expr) : Expr × Resolver :=
  (e.bind r.scopes,
    { r with
      errors := r.errors ++ e.scopeErrors r.scopes
      broken := r.broken || e.parts.any r.scopes.isShapeless })

/-- Declare parameters, the first one at a given offset. -/
def params (r : Resolver) (offset : Int) : List Param → Resolver
  | [] => r
  | p :: ps =>
    let r := r.checkNames p.span.start p.annotation.ty
    let e : Entry := ⟨r.level, p.annotation.ty, offset, .par, p.span⟩
    (r.declare p.span.start .par p.name e).params (offset + 1) ps

end Resolver

/-! ### Class layout -/

/-- The members of a class while they are being laid out: the types of its fields and methods by
position, the entries, and the names that the class itself has declared. -/
structure Layout where
  fields : List Ty := []
  methods : List Ty := []
  members : Table Entry := []
  declared : List Text := []
  deriving Inhabited

namespace Layout

/-- The type of a class with this layout. -/
def ty (l : Layout) (origin : Nat) : Ty := .cls origin l.fields l.methods

/-- The outcome of laying out a member: its offset, the layout, an error, or a place outside the
inherited members. -/
structure Placed where
  offset : Int
  layout : Layout
  error : Option ScopeError := none
  outside : Bool := false

/-- Lay out a field.  One that is inherited keeps its place and takes the new type. -/
def addField (l : Layout) (cls : Text) (level : Nat) (f : Field) : Placed :=
  if f.name ∈ l.declared then
    { offset := f.offset, layout := l, error := some (.fieldRedeclared f.name cls) }
  else
    let l := { l with declared := f.name :: l.declared }
    let entry (offset : Int) : Entry := ⟨level, f.annotation.ty, offset, .field, f.span⟩
    match l.members.get? f.name with
    | none =>
      let offset := Frame.fieldOffset l.fields.length
      { offset := offset
        layout := { l with
          fields := l.fields ++ [f.annotation.ty]
          members := l.members.put f.name (entry offset) } }
    | some inherited =>
      if inherited.kind = .field then
        let position := Frame.fieldPosition inherited.offset
        { offset := inherited.offset
          layout := { l with
            fields := l.fields.set position.toNat f.annotation.ty
            members := l.members.put f.name (entry inherited.offset) }
          outside := position < 0 || l.fields.length ≤ position }
      else { offset := f.offset, layout := l, error := some (.fieldOverMethod f.name cls) }

/-- Lay out a method.  One that is inherited keeps its slot and takes the new type. -/
def addMethod (l : Layout) (cls : Text) (level : Nat) (r : Routine) (offset : Int) : Placed :=
  if r.name ∈ l.declared then
    { offset := offset, layout := l, error := some (.methodRedeclared r.name cls) }
  else
    let l := { l with declared := r.name :: l.declared }
    let entry (offset : Int) : Entry := ⟨level, r.signature, offset, .method, r.span⟩
    match l.members.get? r.name with
    | none =>
      let slot := Frame.methodOffset l.methods.length
      { offset := slot
        layout := { l with
          methods := l.methods ++ [r.signature]
          members := l.members.put r.name (entry slot) } }
    | some inherited =>
      if inherited.kind = .method then
        { offset := inherited.offset
          layout := { l with
            methods := l.methods.set inherited.offset.toNat r.signature
            members := l.members.put r.name (entry inherited.offset) }
          outside := inherited.offset < 0 || l.methods.length ≤ inherited.offset }
      else { offset := offset, layout := l, error := some (.methodOverField r.name cls) }

end Layout

namespace Resolver

/-- Take note of how a member was laid out. -/
def placed (r : Resolver) (pos : Position) (p : Layout.Placed) : Resolver :=
  let r := match p.error with
    | some e => r.report pos e
    | none => r
  r.breakIf p.outside

/-- Lay out the fields of a class. -/
def fields (r : Resolver) (cls : Text) (level : Nat) (l : Layout) :
    List Field → List Field × Layout × Resolver
  | [] => ([], l, r)
  | f :: fs =>
    let r := r.checkNames f.span.start f.annotation.ty
    let p := l.addField cls level f
    let r := r.placed f.span.start p
    let (fs, l, r) := r.fields cls level p.layout fs
    ({ f with offset := p.offset } :: fs, l, r)

/-- Lay out the methods of a class. -/
def methods (r : Resolver) (cls : Text) (level : Nat) (l : Layout) :
    List Method → List Int × Layout × Resolver
  | [] => ([], l, r)
  | m :: ms =>
    let r := r.checkNames m.routine.span.start m.routine.ret.ty
    let p := l.addMethod cls level m.routine m.offset
    let r := r.placed m.routine.span.start p
    let (offsets, l, r) := r.methods cls level p.layout ms
    (p.offset :: offsets, l, r)

/-- What a class inherits: the entry of its superclass and the layout to start from. -/
def inherit (r : Resolver) (c : ClassDecl) : Option Entry × Layout × Resolver :=
  match c.super with
  | none => (none, {}, r)
  | some super =>
    let bad := (none, {}, r.report c.span.start (.badSuper c.name super))
    match r.scopes.class? super, r.scopes.context.classes.get? super with
    | some e, some info => match e.ty with
      | .cls _ fields methods => (some e, { fields, methods, members := info.members }, r)
      | _ => bad
    | _, _ => bad

/-- Record a class under its name, in the innermost scope and in the context. -/
def record (r : Resolver) (name : Text) (super : Option Text) (info : ClassInfo) : Resolver :=
  let r := r.install name info.entry
  let context := r.scopes.context
  let context := { context with
    classes := context.classes.put name info
    supers := match super with
      | some s => context.supers.put name s
      | none => context.supers }
  { r with scopes := { r.scopes with context := context } }

/-- Declare a class and lay out its members.  The result is the class without its method bodies
resolved, the offsets of its methods, and the members that are visible in the bodies. -/
def header (r : Resolver) (c : ClassDecl) :
    List Field × List Int × Layout × Option Entry × Entry × Resolver :=
  let (superEntry, inherited, r) := r.inherit c
  let super := if superEntry.isSome then c.super else none
  let level := r.level
  let (offset, r) := r.takeLocal
  let entry (l : Layout) : Entry := ⟨level, l.ty c.span.start.offset, offset, .cls, c.span⟩
  let fresh := !r.taken c.name
  let r := if fresh then r.record c.name super ⟨inherited.members, entry inherited⟩
    else r.report c.span.start (.redeclared .cls c.name)
  let (fs, l, r) := r.fields c.name (level + 1) inherited c.fields
  let (offsets, l, r) := r.methods c.name (level + 1) l c.methods
  let r := if fresh then r.record c.name super ⟨l.members, entry l⟩ else r
  (fs, offsets, l, superEntry, entry l, r)

/-- Take note of a finished class. -/
def note (r : Resolver) (name : Text) (l : Layout) : Resolver :=
  if r.broken then r
  else { r with notes := r.notes ++ [⟨name, l.fields.length, l.methods.length⟩] }

/-- Declare a variable.  Its expression was resolved before, so it cannot see the variable. -/
def var (r : Resolver) (v : VarDecl) : Resolver :=
  let r := r.checkNames v.span.start v.annotation.ty
  let level := r.level
  let (offset, r) := r.takeLocal
  r.declare v.span.start .var v.name ⟨level, v.annotation.ty, offset, .var, v.span⟩

/-- Declare a function.  Its body comes after, so it can see the function. -/
def fn (r : Resolver) (f : Routine) : Resolver :=
  let r := r.checkNames f.span.start f.ret.ty
  let level := r.level
  let (offset, r) := r.takeLocal
  r.declare f.span.start .fn f.name ⟨level, f.signature, offset, .fn, f.span⟩

end Resolver

/-! ### The walk -/

mutual

/-- Resolve a declaration. -/
def Decl.resolve (r : Resolver) : Decl → Decl × Resolver
  | .var v =>
    let (value, r) := r.expr v.value
    (.var { v with value := value }, r.var v)
  | .fn f =>
    let (f', r) := f.resolveInside (r.fn f)
    (.fn f', r)
  | .cls c =>
    let (c', r) := c.resolve r
    (.cls c', r)

/-- Resolve the parameters, the local declarations and the body of a function or method in a scope
of their own. -/
def Routine.resolveInside (r : Resolver) : Routine → Routine × Resolver
  | ⟨span, name, ret, params, decls, body⟩ =>
    let inner := (r.enter []).params Frame.firstParam params
    let (decls, inner) := resolveDecls inner decls
    let (body, inner) := inner.expr body
    (⟨span, name, ret, params, decls, body⟩, inner.leave r.nextLocal)

/-- Resolve a class. -/
def ClassDecl.resolve (r : Resolver) : ClassDecl → ClassDecl × Resolver
  | ⟨span, name, super, fields, methods, entry, superEntry⟩ =>
    let (fields, offsets, layout, superEntry, entry, r) :=
      r.header ⟨span, name, super, fields, methods, entry, superEntry⟩
    let (methods, inner) := resolveMethods (r.enter layout.members) offsets methods
    (⟨span, name, super, fields, methods, some entry, superEntry⟩,
      (inner.leave r.nextLocal).note name layout)

/-- Resolve a list of declarations. -/
def resolveDecls (r : Resolver) : List Decl → List Decl × Resolver
  | [] => ([], r)
  | d :: ds =>
    let (d, r) := d.resolve r
    let (ds, r) := resolveDecls r ds
    (d :: ds, r)

/-- Resolve the bodies of methods, given their offsets. -/
def resolveMethods (r : Resolver) (offsets : List Int) : List Method → List Method × Resolver
  | [] => ([], r)
  | ⟨routine, _⟩ :: ms =>
    let (routine, r) := routine.resolveInside r
    let (ms, r) := resolveMethods r offsets.tail ms
    (⟨routine, offsets.headD 0⟩ :: ms, r)

end

/-- Resolve a list of classes. -/
def resolveClasses (r : Resolver) : List ClassDecl → List ClassDecl × Resolver
  | [] => ([], r)
  | c :: cs =>
    let (c, r) := c.resolve r
    let (cs, r) := resolveClasses r cs
    (c :: cs, r)

/-- A program with its names resolved, the context it leaves, and what was found on the way. -/
structure Resolution where
  program : Program
  context : Context
  errors : List Diagnostic
  notes : List ClassNote
  broken : Bool

/-- Resolve the names of a program in a context. -/
def Program.resolve (context : Context) (p : Program) : Resolution :=
  let r : Resolver := { scopes := ⟨[[]], context⟩ }
  let (classes, r) := resolveClasses r p.classes
  let (decls, r) := resolveDecls r p.decls
  let (body, r) := r.expr p.body
  ⟨⟨p.span, classes, decls, body⟩, r.scopes.context, r.errors, r.notes, r.broken⟩

end Foolscap
