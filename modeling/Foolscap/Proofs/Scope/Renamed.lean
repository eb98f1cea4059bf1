import Foolscap.Proofs.Tree.Renamed
import Mathlib.Data.List.Basic

/-!
# Resolving the names of renamed programs

The walk that resolves names compares names with each other and does nothing else with them.  So the
walk over a renamed program goes through renamed states, finds renamed errors and attaches renamed
entries.
-/

namespace Foolscap

open List

variable {r : Text → Text}

/-! ### Tables -/

section

variable {α β : Type}

/-- A table with other names. -/
def Table.rename (r : Text → Text) (f : α → β) (t : Table α) : Table β :=
  t.map fun row => (r row.1, f row.2)

namespace IsRenaming

variable (h : IsRenaming r) (f : α → β)

include h

theorem get? (t : Table α) (name : Text) : (t.rename r f).get? (r name) = (t.get? name).map f := by
  induction t with
  | nil => rfl
  | cons row t ih =>
    obtain ⟨n, a⟩ := row
    rw [Table.get?_cons]
    show Table.get? ((r n, f a) :: Table.rename r f t) (r name) = _
    rw [Table.get?_cons, ih]
    simp only [h.eq_iff]
    split <;> rfl

theorem has (t : Table α) (name : Text) : (t.rename r f).has (r name) = t.has name := by
  rw [Table.has, Table.has, h.get?, Option.isSome_map]

theorem put (t : Table α) (name : Text) (a : α) :
    (t.put name a).rename r f = (t.rename r f).put (r name) (f a) := by
  induction t with
  | nil => rfl
  | cons row t ih =>
    obtain ⟨n, b⟩ := row
    show _ = Table.put ((r n, f b) :: Table.rename r f t) (r name) (f a)
    rw [Table.put_cons, Table.put_cons, ← ih]
    simp only [h.eq_iff]
    split <;> rfl

end IsRenaming

end

/-! ### Scopes -/

/-- A class with other names of members. -/
def ClassInfo.rename (r : Text → Text) (c : ClassInfo) : ClassInfo :=
  ⟨c.members.rename r (Entry.rename r), c.entry.rename r⟩

/-- A context with other names. -/
def Context.rename (r : Text → Text) (c : Context) : Context :=
  ⟨c.classes.rename r (ClassInfo.rename r), c.supers.rename r r⟩

/-- Scopes with other names. -/
def Scopes.rename (r : Text → Text) (s : Scopes) : Scopes :=
  ⟨s.tables.map (Table.rename r (Entry.rename r)), s.context.rename r⟩

/-- What a method call turns out to be, with other names. -/
def Reception.rename (r : Text → Text) : Reception → Reception
  | undeclared => undeclared
  | notObject u => notObject (u.rename r)
  | shapeless u => shapeless (u.rename r)
  | noClass u cls => noClass (u.rename r) (r cls)
  | noMethod u cls => noMethod (u.rename r) (r cls)
  | found u target => found (u.rename r) (target.rename r)

/-- A scope error with other names. -/
def ScopeError.rename (r : Text → Text) : ScopeError → ScopeError
  | redeclared what name => redeclared what (r name)
  | badSuper name super => badSuper (r name) (r super)
  | fieldRedeclared field cls => fieldRedeclared (r field) (r cls)
  | fieldOverMethod field cls => fieldOverMethod (r field) (r cls)
  | methodRedeclared method cls => methodRedeclared (r method) (r cls)
  | methodOverField method cls => methodOverField (r method) (r cls)
  | noClass name => noClass (r name)
  | noVariable name => noVariable (r name)
  | noFunction name => noFunction (r name)
  | notClass name => notClass (r name)
  | noObject name => noObject (r name)
  | notObject name => notObject (r name)
  | noClassOf cls object => noClassOf (r cls) (r object)
  | noMethod object cls method => noMethod (r object) (r cls) (r method)

/-- A diagnostic with other names, if it is a scope error. -/
def Diagnostic.rename (r : Text → Text) (d : Diagnostic) : Diagnostic :=
  match d.cause with
  | .scoping e => ⟨d.pos, .scoping (e.rename r)⟩
  | _ => d

theorem Reception.use?_rename (x : Reception) : (x.rename r).use? = x.use?.map (Use.rename r) := by
  cases x <;> rfl

theorem Reception.target?_rename (x : Reception) :
    (x.rename r).target? = x.target?.map (Entry.rename r) := by
  cases x <;> rfl

theorem Scopes.level_rename (s : Scopes) : (s.rename r).level = s.level := by
  rw [Scopes.level, Scopes.level, Scopes.rename, length_map]

theorem Expr.span?_rename (e : Expr) : (e.rename r).span? = e.span? := by
  cases e <;> rfl

theorem Expr.start_rename (e : Expr) : (e.rename r).start = e.start := by
  rw [Expr.start, Expr.start, Expr.span?_rename]

namespace IsRenaming

variable (h : IsRenaming r)

include h

theorem isClass (c : Context) (name : Text) : (c.rename r).isClass (r name) = c.isClass name :=
  h.has _ _ _

theorem entry? (s : Scopes) (name : Text) :
    Scopes.entry? (s.rename r) (r name) = (s.entry? name).map (Entry.rename r) := by
  obtain ⟨tables, context⟩ := s
  show Scopes.find? (tables.map _) (r name) = (Scopes.find? tables name).map _
  induction tables with
  | nil => rfl
  | cons t ts ih =>
    rw [map_cons, Scopes.find?, Scopes.find?, h.get?, ih]
    cases t.get? name <;> rfl

theorem use? (s : Scopes) (name : Text) :
    (s.rename r).use? (r name) = (s.use? name).map (Use.rename r) := by
  rw [Scopes.use?, Scopes.use?, h.entry?, Scopes.level_rename]
  cases s.entry? name <;> rfl

theorem class? (s : Scopes) (name : Text) :
    (s.rename r).class? (r name) = (s.class? name).map (Entry.rename r) := by
  have hclass : (s.rename r).context.isClass (r name) = s.context.isClass name := h.isClass _ _
  rw [Scopes.class?, Scopes.class?, h.entry?, hclass]
  cases s.entry? name with
  | none => rfl
  | some e =>
    show (if e.kind = .cls && s.context.isClass name then _ else _) = _
    split <;> simp_all

/-- The members of a class. -/
theorem members? (s : Scopes) (cls : Text) :
    (s.rename r).context.classes.get? (r cls) =
      (s.context.classes.get? cls).map (ClassInfo.rename r) := h.get? _ _ _

/-- A receiver is looked up by its name and a method in the class of what it stands for, so both
may be renamed at once. -/
theorem receive (s : Scopes) (receiver method : Text) :
    (s.rename r).receive (r receiver) (r method) = (s.receive receiver method).rename r := by
  rw [Scopes.receive, Scopes.receive, h.use?]
  cases s.use? receiver with
  | none => rfl
  | some u =>
    have hty : (u.rename r).entry.ty = u.entry.ty.rename r := rfl
    simp only [Option.map_some, hty]
    cases u.entry.ty with
    | ref cls =>
      simp only [h.ref, h.members?]
      cases s.context.classes.get? cls with
      | none => rfl
      | some info =>
        have hmember : (info.rename r).members.get? (r method) =
            (info.members.get? method).map (Entry.rename r) := h.get? _ _ _
        simp only [Option.map_some, hmember]
        cases info.members.get? method with
        | none => rfl
        | some e =>
          show (if e.kind = .method then _ else _) = _
          split <;> simp_all [Reception.rename]
    | missing shape => rcases shape with _ | (_ | _ | _ | _ | _ | _) <;> rfl
    | int => rfl
    | bool => rfl
    | null => rfl
    | arrow _ _ => rfl
    | cls _ _ _ => rfl

theorem error? (s : Scopes) (e : Expr) :
    (s.rename r).error? (e.rename r) = (s.error? e).map (ScopeError.rename r) := by
  cases e with
  | id _ name _ | call _ name _ _ =>
    simp only [Expr.rename, Scopes.error?, h.entry?, Option.isSome_map]
    split <;> rfl
  | new _ name _ _ =>
    simp only [Expr.rename, Scopes.error?, h.entry?, h.class?, Option.isNone_map]
    split
    · rfl
    · split <;> rfl
  | send _ receiver method _ _ _ =>
    simp only [Expr.rename, Scopes.error?, h.receive]
    cases s.receive receiver method <;> rfl
  | missing | binary | not | cond | print | int | bool | null => rfl

theorem isShapeless (s : Scopes) (e : Expr) :
    (s.rename r).isShapeless (e.rename r) = s.isShapeless e := by
  cases e with
  | send _ receiver method _ _ _ =>
    simp only [Expr.rename, Scopes.isShapeless, h.receive]
    cases s.receive receiver method <;> rfl
  | _ => rfl

end IsRenaming

mutual

theorem IsRenaming.classNames (h : IsRenaming r) :
    ∀ t : Ty, (t.rename r).classNames = t.classNames.map r
  | .int | .bool | .null | .missing _ | .cls _ _ _ => rfl
  | .ref name => by
    rw [h.ref, Ty.classNames, Ty.classNames, h.isEmpty]
    split <;> rfl
  | .arrow params ret => by
    rw [Ty.rename, Ty.classNames, Ty.classNames, h.allClassNames params,
      h.classNames ret, map_append]

theorem IsRenaming.allClassNames (h : IsRenaming r) : ∀ ts : List Ty,
    Ty.allClassNames (Ty.renameAll r ts) = (Ty.allClassNames ts).map r
  | [] => rfl
  | t :: ts => by
    rw [Ty.renameAll, Ty.allClassNames, Ty.allClassNames, h.classNames t,
      h.allClassNames ts, map_append]

end

theorem IsRenaming.unknownClasses (h : IsRenaming r) (s : Scopes) (t : Ty) :
    (s.rename r).unknownClasses (t.rename r) = (s.unknownClasses t).map r := by
  rw [Scopes.unknownClasses, Scopes.unknownClasses, h.classNames, filter_map]
  congr 2
  funext name
  exact congrArg not (h.isClass _ _)

mutual

/-- A renamed expression is resolved to renamed entries. -/
theorem IsRenaming.bind (h : IsRenaming r) (s : Scopes) :
    ∀ e : Expr, (e.rename r).bind (s.rename r) = (e.bind s).rename r
  | .missing | .int _ _ | .bool _ _ | .null _ => rfl
  | .binary _ _ left right => by
    simp only [Expr.rename, Expr.bind, h.bind s left, h.bind s right]
  | .not _ e | .print _ e => by simp only [Expr.rename, Expr.bind, h.bind s e]
  | .cond _ test yes no => by
    simp only [Expr.rename, Expr.bind, h.bind s test, h.bind s yes, h.bind s no]
  | .id _ _ _ => by simp only [Expr.rename, Expr.bind, h.use?]
  | .call _ _ as _ => by simp only [Expr.rename, Expr.bind, h.use?, h.bindAll s as]
  | .new _ _ as _ => by simp only [Expr.rename, Expr.bind, h.class?, h.bindAll s as]
  | .send _ _ _ as _ _ => by
    simp only [Expr.rename, Expr.bind, h.receive, Reception.use?_rename,
      Reception.target?_rename, h.bindAll s as]

theorem IsRenaming.bindAll (h : IsRenaming r) (s : Scopes) : ∀ es : List Expr,
    Foolscap.bindAll (s.rename r) (renameArgs r es) = renameArgs r (Foolscap.bindAll s es)
  | [] => rfl
  | e :: es => by simp only [renameArgs, Foolscap.bindAll, h.bind s e, h.bindAll s es]

end

mutual

theorem Expr.parts_rename : ∀ e : Expr, (e.rename r).parts = e.parts.map (Expr.rename r)
  | .missing | .int _ _ | .bool _ _ | .null _ | .id _ _ _ => rfl
  | .binary _ _ left right => by
    simp only [Expr.rename, Expr.parts, map_cons, map_append, left.parts_rename,
      right.parts_rename]
  | .not _ e | .print _ e => by simp only [Expr.rename, Expr.parts, map_cons, e.parts_rename]
  | .cond _ test yes no => by
    simp only [Expr.rename, Expr.parts, map_cons, map_append, test.parts_rename,
      yes.parts_rename, no.parts_rename]
  | .call _ _ as _ | .new _ _ as _ | .send _ _ _ as _ _ => by
    simp only [Expr.rename, Expr.parts, map_cons, allParts_renameArgs as]

theorem allParts_renameArgs : ∀ es : List Expr,
    allParts (renameArgs r es) = (allParts es).map (Expr.rename r)
  | [] => rfl
  | e :: es => by
    simp only [renameArgs, allParts, map_append, e.parts_rename, allParts_renameArgs es]

end

/-- The uses of a renamed expression have the same errors, about renamed names. -/
theorem IsRenaming.scopeErrors (h : IsRenaming r) (s : Scopes) (e : Expr) :
    (e.rename r).scopeErrors (s.rename r) = (e.scopeErrors s).map (Diagnostic.rename r) := by
  rw [Expr.scopeErrors, Expr.scopeErrors, Expr.parts_rename, filterMap_map,
    map_filterMap]
  congr 1
  funext p
  rw [Function.comp_apply, h.error?, Expr.start_rename]
  cases s.error? p <;> rfl

section

variable (f : Routine)

theorem Routine.span_rename : (f.rename r).span = f.span := by
  obtain ⟨_, _, _, _, _, _⟩ := f
  rfl

theorem Routine.name_rename : (f.rename r).name = r f.name := by
  obtain ⟨_, _, _, _, _, _⟩ := f
  rfl

theorem Routine.ret_rename : (f.rename r).ret.ty = f.ret.ty.rename r := by
  obtain ⟨_, _, _, _, _, _⟩ := f
  rfl

theorem Routine.signature_rename : (f.rename r).signature = f.signature.rename r := by
  obtain ⟨_, _, _, params, _, _⟩ := f
  simp only [Routine.rename, Routine.signature, Ty.rename, Ty.renameAll_eq_map, map_map]
  rfl

end

/-! ### The state of the walk -/

/-- The note of a class with another name. -/
def ClassNote.rename (r : Text → Text) (n : ClassNote) : ClassNote := { n with name := r n.name }

/-- The state of the walk with other names. -/
def Resolver.rename (r : Text → Text) (R : Resolver) : Resolver where
  scopes := R.scopes.rename r
  nextLocal := R.nextLocal
  errors := R.errors.map (Diagnostic.rename r)
  notes := R.notes.map (ClassNote.rename r)
  broken := R.broken

/-- The layout of a class with other names. -/
def Layout.rename (r : Text → Text) (l : Layout) : Layout where
  fields := l.fields.map (Ty.rename r)
  methods := l.methods.map (Ty.rename r)
  members := l.members.rename r (Entry.rename r)
  declared := l.declared.map r

/-- The outcome of laying out a member with another name. -/
def Layout.Placed.rename (r : Text → Text) (p : Layout.Placed) : Layout.Placed where
  offset := p.offset
  layout := p.layout.rename r
  error := p.error.map (ScopeError.rename r)
  outside := p.outside

theorem Layout.ty_rename (l : Layout) (origin : Nat) :
    (l.rename r).ty origin = (l.ty origin).rename r := by
  simp only [Layout.ty, Layout.rename, Ty.rename, Ty.renameAll_eq_map]

namespace Resolver

variable (R : Resolver)

theorem level_rename : (R.rename r).level = R.level := Scopes.level_rename _

theorem report_rename (pos : Position) (e : ScopeError) :
    (R.rename r).report pos (e.rename r) = (R.report pos e).rename r := by
  simp only [report, rename, map_append]
  rfl

theorem breakIf_rename (b : Bool) : (R.rename r).breakIf b = (R.breakIf b).rename r := rfl

theorem takeLocal_rename :
    (R.rename r).takeLocal = (R.takeLocal.1, R.takeLocal.2.rename r) := rfl

theorem enter_rename (t : Table Entry) :
    (R.rename r).enter (t.rename r (Entry.rename r)) = (R.enter t).rename r := rfl

theorem leave_rename (outer : Int) : (R.rename r).leave outer = (R.leave outer).rename r := by
  simp only [leave, rename, Scopes.rename, map_tail]

theorem note_rename (name : Text) (l : Layout) :
    (R.rename r).note (r name) (l.rename r) = (R.note name l).rename r := by
  have hbroken : (R.rename r).broken = R.broken := rfl
  rw [note, note, hbroken]
  split
  · rfl
  · simp only [rename, Layout.rename, length_map, map_append]
    rfl

theorem placed_rename (pos : Position) (p : Layout.Placed) :
    (R.rename r).placed pos (p.rename r) = (R.placed pos p).rename r := by
  obtain ⟨_, _, error, _⟩ := p
  cases error with
  | none => rfl
  | some e =>
    show (report (R.rename r) pos (e.rename r)).breakIf _ = _
    rw [report_rename, breakIf_rename]
    rfl

end Resolver

namespace IsRenaming

variable (h : IsRenaming r) (R : Resolver)

include h

theorem install (name : Text) (e : Entry) :
    (R.rename r).install (r name) (e.rename r) = (R.install name e).rename r := by
  obtain ⟨⟨tables, context⟩, _, _, _, _⟩ := R
  cases tables with
  | nil => rfl
  | cons t ts =>
    simp only [Resolver.install, Resolver.rename, Scopes.rename, map_cons, h.put]

theorem taken (name : Text) : (R.rename r).taken (r name) = R.taken name := by
  obtain ⟨⟨tables, context⟩, _, _, _, _⟩ := R
  cases tables with
  | nil => rfl
  | cons t ts => exact h.has _ _ _

theorem declare (pos : Position) (what : Declared) (name : Text) (e : Entry) :
    (R.rename r).declare pos what (r name) (e.rename r) = (R.declare pos what name e).rename r := by
  rw [Resolver.declare, Resolver.declare, h.taken]
  split
  · exact R.report_rename pos (.redeclared what name)
  · exact h.install R name e

theorem checkNames (pos : Position) (t : Ty) :
    (R.rename r).checkNames pos (t.rename r) = (R.checkNames pos t).rename r := by
  have hfold : ∀ (names : List Text) (R : Resolver),
      (names.map r).foldl (fun R name => R.report pos (.noClass name)) (R.rename r) =
        (names.foldl (fun R name => R.report pos (.noClass name)) R).rename r := by
    intro names
    induction names with
    | nil => exact fun R => rfl
    | cons name names ih =>
      intro R
      rw [map_cons, foldl_cons, foldl_cons, ← ih, ← R.report_rename]
      rfl
  have hunknown : (R.rename r).scopes.unknownClasses (t.rename r) =
      (R.scopes.unknownClasses t).map r := h.unknownClasses _ _
  rw [Resolver.checkNames, Resolver.checkNames, hunknown, hfold]

theorem expr (e : Expr) :
    (R.rename r).expr (e.rename r) = ((R.expr e).1.rename r, (R.expr e).2.rename r) := by
  have hshapeless : (e.rename r).parts.any (R.scopes.rename r).isShapeless =
      e.parts.any R.scopes.isShapeless := by
    rw [Expr.parts_rename, any_map]
    congr 1
    funext p
    exact h.isShapeless _ _
  simp only [Resolver.expr, Resolver.rename, h.bind, h.scopeErrors, hshapeless, map_append]

theorem params (offset : Int) (ps : List Param) :
    (R.rename r).params offset (ps.map (Param.rename r)) = (R.params offset ps).rename r := by
  induction ps generalizing R offset with
  | nil => rfl
  | cons p ps ih =>
    have hty : ( Param.annotation (p.rename r)).ty = p.annotation.ty.rename r := rfl
    simp only [map_cons, Resolver.params, hty, h.checkNames, Resolver.level_rename]
    rw [← ih, ← h.declare]
    rfl

/-! ### Classes -/

theorem mem_declared (l : Layout) (name : Text) :
    r name ∈ (l.rename r).declared ↔ name ∈ l.declared :=
  mem_map_of_injective h.injective

theorem member? (l : Layout) (name : Text) :
    (l.rename r).members.get? (r name) = (l.members.get? name).map (Entry.rename r) := h.get? _ _ _

theorem addField (l : Layout) (cls : Text) (level : Nat) (f : Field) :
    (l.rename r).addField (r cls) level (f.rename r) = (l.addField cls level f).rename r := by
  have hname : (f.rename r).name = r f.name := rfl
  simp only [Layout.addField, hname, h.mem_declared, h.member?]
  split
  · rfl
  cases l.members.get? f.name with
  | none =>
    simp only [Layout.Placed.rename, Layout.rename, h.put, length_map, map_append,
      map_cons]
    rfl
  | some inherited =>
    have hkind : (inherited.rename r).kind = inherited.kind := rfl
    simp only [Option.map_some, hkind]
    split
    · simp only [Layout.Placed.rename, Layout.rename, h.put, length_map, map_set,
        map_cons]
      rfl
    · rfl

/-- Whether a method overrides another one depends on which names are equal, and a renaming that is
one to one keeps that. -/
theorem addMethod (l : Layout) (cls : Text) (level : Nat) (f : Routine) (offset : Int) :
    (l.rename r).addMethod (r cls) level (f.rename r) offset =
      (l.addMethod cls level f offset).rename r := by
  obtain ⟨hname, hsignature, hspan⟩ : (f.rename r).name = r f.name ∧
      (f.rename r).signature = f.signature.rename r ∧ (f.rename r).span = f.span :=
    ⟨f.name_rename, f.signature_rename, f.span_rename⟩
  simp only [Layout.addMethod, hname, hsignature, hspan, h.mem_declared, h.member?]
  split
  · rfl
  cases l.members.get? f.name with
  | none =>
    simp only [Layout.Placed.rename, Layout.rename, h.put, length_map, map_append,
      map_cons]
    rfl
  | some inherited =>
    have hkind : (inherited.rename r).kind = inherited.kind := rfl
    simp only [Option.map_some, hkind]
    split
    · simp only [Layout.Placed.rename, Layout.rename, h.put, length_map, map_set,
        map_cons]
      rfl
    · rfl

theorem fields (cls : Text) (level : Nat) (l : Layout) (fs : List Field) :
    (R.rename r).fields (r cls) level (l.rename r) (fs.map (Field.rename r)) =
      ((R.fields cls level l fs).1.map (Field.rename r), (R.fields cls level l fs).2.1.rename r,
        (R.fields cls level l fs).2.2.rename r) := by
  induction fs generalizing R l with
  | nil => rfl
  | cons f fs ih =>
    have hty : ( Field.annotation (f.rename r)).ty = f.annotation.ty.rename r := rfl
    have hspan : (f.rename r).span = f.span := rfl
    have hlayout : ((l.addField cls level f).rename r).layout =
        (l.addField cls level f).layout.rename r := rfl
    simp only [map_cons, Resolver.fields, hty, hspan, h.checkNames, h.addField,
      Resolver.placed_rename, hlayout, ih]
    rfl

theorem methods (cls : Text) (level : Nat) (l : Layout) (ms : List Method) :
    (R.rename r).methods (r cls) level (l.rename r) (renameMethods r ms) =
      ((R.methods cls level l ms).1, (R.methods cls level l ms).2.1.rename r,
        (R.methods cls level l ms).2.2.rename r) := by
  induction ms generalizing R l with
  | nil => rfl
  | cons m ms ih =>
    obtain ⟨f, offset⟩ := m
    have hlayout : ((l.addMethod cls level f offset).rename r).layout =
        (l.addMethod cls level f offset).layout.rename r := rfl
    simp only [renameMethods, Resolver.methods, f.ret_rename, f.span_rename, h.checkNames,
      h.addMethod, Resolver.placed_rename, hlayout, ih]
    rfl

/-- The superclass is found under its new name, and what is inherited from it is renamed with
it. -/
theorem inherit (c : ClassDecl) :
    (R.rename r).inherit (c.rename r) =
      ((R.inherit c).1.map (Entry.rename r), (R.inherit c).2.1.rename r,
        (R.inherit c).2.2.rename r) := by
  obtain ⟨span, name, super, _, _, _, _⟩ := c
  cases super with
  | none => rfl
  | some super =>
    have hclass : (R.rename r).scopes.class? (r super) =
        (R.scopes.class? super).map (Entry.rename r) := h.class? _ _
    have hmembers : (R.rename r).scopes.context.classes.get? (r super) =
        (R.scopes.context.classes.get? super).map (ClassInfo.rename r) := h.members? _ _
    have hbad : (R.rename r).report span.start (.badSuper (r name) (r super)) =
        (R.report span.start (.badSuper name super)).rename r :=
      R.report_rename span.start (.badSuper name super)
    simp only [Resolver.inherit, ClassDecl.rename, Option.map_some, hclass, hmembers, hbad]
    cases R.scopes.class? super with
    | none => rfl
    | some e =>
      cases R.scopes.context.classes.get? super with
      | none => rfl
      | some info =>
        have hty : (e.rename r).ty = e.ty.rename r := rfl
        simp only [Option.map_some, hty]
        cases e.ty with
        | cls _ fields methods =>
          simp only [Ty.rename, Ty.renameAll_eq_map]
          rfl
        | ref cls =>
          rw [h.ref]
          rfl
        | int | bool | null | arrow | missing => rfl

theorem record (name : Text) (super : Option Text) (info : ClassInfo) :
    (R.rename r).record (r name) (super.map r) (info.rename r) =
      (R.record name super info).rename r := by
  have hentry : (info.rename r).entry = info.entry.rename r := rfl
  simp only [Resolver.record, hentry, h.install]
  generalize R.install name info.entry = R'
  cases super <;>
    simp only [Resolver.rename, Scopes.rename, Context.rename, h.put, Option.map_none,
      Option.map_some]

/-- The members of a renamed class are laid out at the same places. -/
theorem header (c : ClassDecl) :
    (R.rename r).header (c.rename r) =
      ((R.header c).1.map (Field.rename r), (R.header c).2.1, (R.header c).2.2.1.rename r,
        (R.header c).2.2.2.1.map (Entry.rename r), (R.header c).2.2.2.2.1.rename r,
        (R.header c).2.2.2.2.2.rename r) := by
  obtain ⟨span, name, super, fields, methods, entry, superEntry⟩ := c
  have hinherit := h.inherit R ⟨span, name, super, fields, methods, entry, superEntry⟩
  rw [ClassDecl.rename] at hinherit ⊢
  simp only [Resolver.header, hinherit]
  generalize R.inherit ⟨span, name, super, fields, methods, entry, superEntry⟩ = made
  obtain ⟨superEntry', inherited, R₁⟩ := made
  have hsuper : (if (superEntry'.map (Entry.rename r)).isSome then super.map r else none) =
      (if superEntry'.isSome then super else none).map r := by
    rw [Option.isSome_map]
    split <;> rfl
  simp only [hsuper, Resolver.takeLocal_rename, Resolver.level_rename, h.taken, Layout.ty_rename]
  generalize (if superEntry'.isSome then super else none) = super'
  have hrecord : ∀ (R : Resolver) (l : Layout), (R.rename r).record (r name) (super'.map r)
      ⟨(l.rename r).members,
        ⟨R₁.level, (l.ty span.start.offset).rename r, R₁.takeLocal.1, .cls, span⟩⟩ =
      (R.record name super' ⟨l.members,
        ⟨R₁.level, l.ty span.start.offset, R₁.takeLocal.1, .cls, span⟩⟩).rename r :=
    fun R l => h.record R name super' ⟨l.members, ⟨_, _, _, _, _⟩⟩
  have hreport : (R₁.takeLocal.2.rename r).report span.start (.redeclared .cls (r name)) =
      (R₁.takeLocal.2.report span.start (.redeclared .cls name)).rename r :=
    Resolver.report_rename _ span.start (.redeclared .cls name)
  cases R₁.takeLocal.2.taken name <;>
    simp only [Bool.not_true, Bool.not_false, Bool.false_eq_true, if_true, if_false, hrecord,
      hreport, h.fields, h.methods, Layout.ty_rename] <;>
    rfl

theorem var (v : VarDecl) : (R.rename r).var (v.rename r) = (R.var v).rename r := by
  have hty : ( VarDecl.annotation (v.rename r)).ty = v.annotation.ty.rename r := rfl
  have hspan : (v.rename r).span = v.span := rfl
  simp only [Resolver.var, hty, hspan, h.checkNames, Resolver.level_rename,
    Resolver.takeLocal_rename]
  rw [← h.declare]
  rfl

theorem fn (f : Routine) : (R.rename r).fn (f.rename r) = (R.fn f).rename r := by
  simp only [Resolver.fn, f.ret_rename, f.span_rename, f.name_rename, f.signature_rename,
    h.checkNames, Resolver.level_rename, Resolver.takeLocal_rename]
  rw [← h.declare]
  rfl

end IsRenaming

/-! ### The walk -/

mutual

theorem IsRenaming.decl (h : IsRenaming r) : ∀ (d : Decl) (R : Resolver),
    (d.rename r).resolve (R.rename r) = ((d.resolve R).1.rename r, (d.resolve R).2.rename r)
  | .var v, R => by
    have hvalue : (v.rename r).value = v.value.rename r := rfl
    simp only [Decl.rename, Decl.resolve, hvalue, h.expr, h.var]
    rfl
  | .fn f, R => by
    simp only [Decl.rename, Decl.resolve, h.fn, h.inside f]
  | .cls c, R => by
    simp only [Decl.rename, Decl.resolve, h.cls c]

theorem IsRenaming.inside (h : IsRenaming r) : ∀ (f : Routine) (R : Resolver),
    (f.rename r).resolveInside (R.rename r) =
      ((f.resolveInside R).1.rename r, (f.resolveInside R).2.rename r)
  | ⟨span, name, ret, params, decls, body⟩, R => by
    have henter : (R.rename r).enter [] = (R.enter []).rename r := R.enter_rename []
    have hlocal : (R.rename r).nextLocal = R.nextLocal := rfl
    simp only [Routine.rename, Routine.resolveInside, henter, hlocal, h.params, h.decls decls,
      h.expr, Resolver.leave_rename]

theorem IsRenaming.cls (h : IsRenaming r) : ∀ (c : ClassDecl) (R : Resolver),
    (c.rename r).resolve (R.rename r) = ((c.resolve R).1.rename r, (c.resolve R).2.rename r)
  | ⟨span, name, super, fields, methods, entry, superEntry⟩, R => by
    have hheader := h.header R ⟨span, name, super, fields, methods, entry, superEntry⟩
    simp only [ClassDecl.rename] at hheader
    simp only [ClassDecl.rename, ClassDecl.resolve, hheader]
    generalize R.header ⟨span, name, super, fields, methods, entry, superEntry⟩ = made
    obtain ⟨fields, offsets, layout, superEntry, entry, R'⟩ := made
    have henter : (R'.rename r).enter (layout.rename r).members =
        (R'.enter layout.members).rename r := R'.enter_rename _
    have hlocal : (R'.rename r).nextLocal = R'.nextLocal := rfl
    simp only [henter, hlocal, h.bodies methods, Resolver.leave_rename, Resolver.note_rename,
      Option.map_some]

theorem IsRenaming.decls (h : IsRenaming r) : ∀ (ds : List Decl) (R : Resolver),
    resolveDecls (R.rename r) (renameDecls r ds) =
      (renameDecls r (resolveDecls R ds).1, (resolveDecls R ds).2.rename r)
  | [], R => by simp only [renameDecls, resolveDecls]
  | d :: ds, R => by simp only [renameDecls, resolveDecls, h.decl d, h.decls ds]

theorem IsRenaming.bodies (h : IsRenaming r) : ∀ (ms : List Method) (offsets : List Int)
    (R : Resolver), resolveMethods (R.rename r) offsets (renameMethods r ms) =
      (renameMethods r (resolveMethods R offsets ms).1, (resolveMethods R offsets ms).2.rename r)
  | [], offsets, R => by simp only [renameMethods, resolveMethods]
  | ⟨f, _⟩ :: ms, offsets, R => by
    simp only [renameMethods, resolveMethods, h.inside f, h.bodies ms]

end

theorem IsRenaming.classes (h : IsRenaming r) (R : Resolver) (cs : List ClassDecl) :
    resolveClasses (R.rename r) (cs.map (ClassDecl.rename r)) =
      ((resolveClasses R cs).1.map (ClassDecl.rename r), (resolveClasses R cs).2.rename r) := by
  induction cs generalizing R with
  | nil => rfl
  | cons c cs ih => simp only [map_cons, resolveClasses, h.cls c, ih]

/-- A resolution with other names. -/
def Resolution.rename (r : Text → Text) (x : Resolution) : Resolution where
  program := x.program.rename r
  context := x.context.rename r
  errors := x.errors.map (Diagnostic.rename r)
  notes := x.notes.map (ClassNote.rename r)
  broken := x.broken

/-- Resolving the names of a renamed program comes to the renamed resolution. -/
theorem IsRenaming.resolve (h : IsRenaming r) (context : Context) (p : Program) :
    (p.rename r).resolve (context.rename r) = (p.resolve context).rename r := by
  have hstart : (⟨⟨[[]], context.rename r⟩, Frame.firstLocal, [], [], false⟩ : Resolver) =
      Resolver.rename r ⟨⟨[[]], context⟩, Frame.firstLocal, [], [], false⟩ := rfl
  simp only [Program.resolve, Program.rename, hstart, h.classes, h.decls, h.expr]
  rfl

end Foolscap
