import Foolscap.Proofs.Class.Tables
import Foolscap.Proofs.Scope.Bound
import Foolscap.Proofs.Tree.Spread

/-!
# Recorded declarations

Every entry that the walk over a program keeps is the record of a declaration of the program, under
the name of that declaration.  So without scope errors every name that is used has such an entry,
and every class that a type names is declared.
-/

namespace Foolscap

open List

/-! ### Entries -/

/-- The kind of the entries of a declaration. -/
def Declaration.kind : Declaration → EntryKind
  | cls _ => .cls
  | fn _ => .fn
  | method _ => .method
  | field _ => .field
  | var _ => .var
  | par _ => .par

/-- An entry under a name is the record of one of the declarations among some nodes, and its type is
known. -/
structure Entry.Records (ns : List Node) (name : Text) (e : Entry) : Prop where
  declared : ∃ n ∈ ns, ∃ d, n.declaration? = some d ∧
    d.name = name ∧ d.span = e.site ∧ d.kind = e.kind
  shaped : e.ty ≠ .missing (some .ref)

/-- All entries of a table are records. -/
def Table.Records (ns : List Node) (t : Table Entry) : Prop :=
  ∀ name e, t.get? name = some e → e.Records ns name

/-- The entries that can be seen, and those of the classes and their members, are records. -/
structure Scopes.Recorded (ns : List Node) (s : Scopes) : Prop where
  located : ∀ name i e, Scopes.locate s.tables name = some (i, e) → e.Records ns name
  classes : ∀ name info, s.context.classes.get? name = some info →
    info.entry.Records ns name ∧ info.entry.kind = .cls ∧ info.members.Records ns

section

variable {ns : List Node} {n : Node} {d : Declaration} {ty : Ty} {name : Text} {s : Scopes}
  {ms : List Method} {R : Resolver} {global : Table Entry}

/-- The entry of a declaration. -/
theorem Entry.Records.of_declaration? (hn : n ∈ ns) (hd : n.declaration? = some d)
    (hty : ty ≠ .missing (some .ref)) (level offset : Int) :
    Entry.Records ns d.name ⟨level, ty, offset, d.kind, d.span⟩ :=
  ⟨⟨n, hn, d, hd, rfl, rfl, rfl⟩, hty⟩

theorem Ty.ne_missing (h : ty.isComplete) : ty ≠ .missing (some .ref) := by
  rintro rfl
  cases h

theorem Routine.signature_ne_missing (r : Routine) : r.signature ≠ .missing (some .ref) := nofun

namespace Scopes.Recorded

variable {s : Scopes} {name : Text} {e : Entry} {t : Table Entry}

theorem entry? (h : s.Recorded ns) (he : s.entry? name = some e) : e.Records ns name := by
  obtain ⟨i, hi⟩ := find?_eq_some_iff.mp he
  exact h.located name i e hi

theorem enter (h : s.Recorded ns) (ht : t.Records ns) :
    Scopes.Recorded ns ⟨t :: s.tables, s.context⟩ := by
  refine ⟨fun name i e hl => ?_, h.classes⟩
  obtain ⟨-, hget⟩ | ⟨j, -, hj⟩ := locate_cons hl
  · exact ht name e hget
  · exact h.located name j e hj

/-- One more name in the innermost scope. -/
theorem put (h : s.Recorded ns) {ts : List (Table Entry)} (ht : s.tables = t :: ts)
    (he : e.Records ns name) :
    ∀ other i e', locate (t.put name e :: ts) other = some (i, e') → e'.Records ns other := by
  intro other i e' hl
  obtain ⟨rfl, -, rfl⟩ | ⟨-, hl⟩ := locate_put hl
  · exact he
  · exact h.located other i e' (ht ▸ hl)

/-- A class whose name is known has an entry. -/
theorem isClass (h : s.Recorded ns) (hname : s.context.isClass name) :
    ∃ e : Entry, e.Records ns name ∧ e.kind = .cls := by
  obtain ⟨info, hinfo⟩ := Option.isSome_iff_exists.mp hname
  obtain ⟨hentry, hkind, -⟩ := h.classes name info hinfo
  exact ⟨info.entry, hentry, hkind⟩

end Scopes.Recorded

/-! ### Names -/

/-- Whether a name can only be that of a class. -/
def Part.isClass : Part → Bool
  | annotated | super | constructed => true
  | _ => false

/-- The entry that is attached to a name in a node. -/
def Node.entry? : Node → Part → Option Entry
  | .expr (.id _ _ use), .variable => use.map Use.entry
  | .expr (.call _ _ _ use), .callee => use.map Use.entry
  | .expr (.new _ _ _ entry), .constructed => entry
  | .expr (.send _ _ _ _ use _), .receiver => use.map Use.entry
  | .expr (.send _ _ _ _ _ target), .method => target
  | .cls c, .super => c.superEntry
  | _, _ => none

/-- An entry is what a name in a node stands for.  It is attached to the node, unless the name is
in a type. -/
structure Node.Binds (ns : List Node) (n : Node) (m : Mention) (e : Entry) : Prop where
  attached : m.part ≠ .annotated → n.entry? m.part = some e
  records : e.Records ns m.name
  isClass : m.part.isClass → e.kind = .cls

/-- Every name that a node holds and does not declare stands for something, and no class is its own
superclass. -/
structure Node.Settled (ns : List Node) (n : Node) : Prop where
  binds : ∀ m ∈ n.mentions, m.name ≠ [] → m.part = .declared ∨ ∃ e, n.Binds ns m e
  proper : ∀ c, n = .cls c → c.super ≠ some c.name

/-- The class that a written type names is declared. -/
def Annotation.Settled (ns : List Node) (a : Annotation) : Prop :=
  ∀ name, a.ty = .ref name → name ≠ [] → ∃ e : Entry, e.Records ns name ∧ e.kind = .cls

/-- A node that declares a name with a type is settled if the type is. -/
theorem Annotation.Settled.node {a : Annotation} (h : a.Settled ns)
    (hn : n.mentions = ⟨.declared, name⟩ :: a.mentions) (hcls : ∀ c, n ≠ .cls c := by simp) :
    n.Settled ns := by
  refine ⟨fun m hm hne => ?_, fun c hc => absurd hc (hcls c)⟩
  rw [hn, mem_cons] at hm
  rcases hm with rfl | hm
  · exact .inl rfl
  · unfold Annotation.mentions at hm
    split at hm
    · next cls hty =>
      obtain rfl := mem_singleton.mp hm
      obtain ⟨e, he, hkind⟩ := h cls hty hne
      exact .inr ⟨e, fun hpart => absurd rfl hpart, he, fun _ => hkind⟩
    · cases hm

/-! ### Expressions -/

/-- A name that is declared has the entry of its declaration. -/
theorem Scopes.Recorded.use (h : s.Recorded ns) {err : ScopeError}
    (herror : (if (s.entry? name).isSome then none else some err) = none) :
    ∃ e : Entry, (s.use? name).map Use.entry = some e ∧ e.Records ns name := by
  rw [Scopes.use?]
  cases he : s.entry? name with
  | none => rw [he] at herror; cases herror
  | some e => exact ⟨e, rfl, h.entry? he⟩

/-- The names at the top of an expression stand for something if there is no error. -/
theorem Expr.settled_bind (h : s.Recorded ns) {e : Expr} (herror : s.error? e = none) :
    (Node.expr (e.bind s)).Settled ns := by
  refine ⟨fun m hm _ => .inr ?_, nofun⟩
  cases e with
  | id sp name use | call sp name as use =>
    obtain rfl := mem_singleton.mp hm
    rw [Scopes.error?] at herror
    obtain ⟨e, he, hrecords⟩ := h.use herror
    exact ⟨e, fun _ => he, hrecords, nofun⟩
  | new sp name as entry =>
    obtain rfl := mem_singleton.mp hm
    obtain ⟨e, he⟩ : ∃ e, s.class? name = some e := by
      rw [Scopes.error?] at herror
      refine Option.ne_none_iff_exists'.mp fun hnone => ?_
      rw [hnone] at herror
      split at herror <;> cases herror
    obtain ⟨hentry, hkind⟩ := Scopes.of_class? he
    exact ⟨e, fun _ => he, h.entry? hentry, fun _ => hkind⟩
  | send sp receiver method as use target =>
    obtain ⟨e, he⟩ : ∃ e, (s.receive receiver method).target? = some e := by
      rw [Scopes.error?] at herror
      cases hr : s.receive receiver method with
      | found u e => exact ⟨e, rfl⟩
      | shapeless u =>
        obtain ⟨hu, hmissing⟩ := Scopes.receive_shapeless hr
        obtain ⟨e, he, rfl⟩ := Option.map_eq_some_iff.mp hu
        exact absurd hmissing (h.entry? he).shaped
      | _ => rw [hr] at herror; cases herror
    obtain ⟨u, cls, info, hu, huse, -, hinfo, hget, -⟩ := Scopes.receive_target he
    rcases mem_cons.mp hm with rfl | hm
    · obtain ⟨e', he', rfl⟩ := Option.map_eq_some_iff.mp hu
      exact ⟨e', fun _ => congrArg (Option.map Use.entry) huse, h.entry? he', nofun⟩
    · obtain rfl := mem_singleton.mp hm
      exact ⟨e, fun _ => he, (h.classes cls info hinfo).2.2 method e hget, nofun⟩
  | _ => cases hm

/-! ### Declarations -/

namespace Resolver

variable {R : Resolver} (h : R.scopes.Recorded ns)

include h

theorem expr_settled {e : Expr} (hclean : (R.expr e).2.errors = []) :
    ∀ n ∈ (e.bind R.scopes).walk fun _ => true, n.Settled ns := by
  rw [Expr.walk_eq_parts, Expr.parts_bind, map_map]
  intro n hn
  obtain ⟨part, hpart, rfl⟩ := mem_map.mp hn
  exact Expr.settled_bind h
    (Expr.resolves_of_scopeErrors (append_eq_nil_iff.mp hclean).2 part hpart)

/-- The class that a type names is known if there is no error. -/
theorem checkNames_settled {a : Annotation} {pos : Position}
    (hclean : (R.checkNames pos a.ty).errors = []) : a.Settled ns := by
  intro name hty hne
  have hnone := unknownClasses_eq_nil hclean
  rw [hty, Scopes.unknownClasses, Ty.classNames, if_neg (by simpa using hne)] at hnone
  exact h.isClass (by simpa using hnone)

theorem checkNames_recorded (pos : Position) (t : Ty) :
    (R.checkNames pos t).scopes.Recorded ns := by
  rwa [(R.checkNames_still pos t).scopes]

theorem declare_recorded {name : Text} {e : Entry} (he : e.Records ns name) (pos : Position)
    (what : Declared) : (R.declare pos what name e).scopes.Recorded ns := by
  rw [declare]
  split
  · exact h
  · rw [install]
    split
    · next ht => exact ⟨h.put ht he, h.classes⟩
    · exact h

theorem var_recorded {v : VarDecl} (hn : .var v ∈ ns) (hty : v.annotation.ty.isComplete) :
    (R.var v).scopes.Recorded ns ∧
      ((R.var v).errors = [] → v.annotation.Settled ns) := by
  refine ⟨?_, fun hclean => ?_⟩
  · exact declare_recorded (R := (R.checkNames _ _).takeLocal.2) (checkNames_recorded h _ _)
      (.of_declaration? hn (d := .var v) rfl (Ty.ne_missing hty) _ _) _ _
  · exact checkNames_settled h ((declare_kept (takeLocal _).2 _ _ _ _).clean hclean)

theorem fn_recorded {f : Routine} (hn : .fn f ∈ ns) :
    (R.fn f).scopes.Recorded ns ∧ ((R.fn f).errors = [] → f.ret.Settled ns) := by
  refine ⟨?_, fun hclean => ?_⟩
  · exact declare_recorded (R := (R.checkNames _ _).takeLocal.2) (checkNames_recorded h _ _)
      (.of_declaration? hn (d := .fn f) rfl f.signature_ne_missing _ _) _ _
  · exact checkNames_settled h ((declare_kept (takeLocal _).2 _ _ _ _).clean hclean)

/-- Parameters are entered under their own names and spans, so each entry leads back to a node, and
every class in their types is one of the program. -/
theorem params_recorded {ps : List Param} (hns : ∀ p ∈ ps, .par p ∈ ns)
    (hty : ∀ p ∈ ps, p.annotation.ty.isComplete) (offset : Int) :
    (R.params offset ps).scopes.Recorded ns ∧
      ((R.params offset ps).errors = [] → ∀ p ∈ ps, p.annotation.Settled ns) := by
  induction ps generalizing R offset with
  | nil => exact ⟨h, fun _ => nofun⟩
  | cons p ps ih =>
    obtain ⟨hp, hns⟩ := forall_mem_cons.mp hns
    obtain ⟨hpty, hty⟩ := forall_mem_cons.mp hty
    have hdeclared := declare_recorded (checkNames_recorded h p.span.start p.annotation.ty)
      (.of_declaration? hp (d := .par p) rfl (Ty.ne_missing hpty)
        (R.checkNames p.span.start p.annotation.ty).level offset) p.span.start .par
    obtain ⟨hrecorded, hsettled⟩ := ih hdeclared hns hty (offset + 1)
    refine ⟨hrecorded, fun hclean => forall_mem_cons.mpr ⟨?_, hsettled hclean⟩⟩
    exact checkNames_settled h ((declare_kept _ _ _ _ _).clean ((params_kept _ _ _).clean hclean))

end Resolver

mutual

/-- A declaration: what is kept, and what is attached to its nodes. -/
theorem Decl.settled : ∀ (d : Decl), d.Plain → (∀ n ∈ d.walk fun _ => true, n ∈ ns) →
    ∀ {R : Resolver}, R.scopes.Recorded ns → (d.resolve R).2.scopes.Recorded ns ∧
      ((d.resolve R).2.errors = [] → ∀ n ∈ (d.resolve R).1.walk fun _ => true, n.Settled ns)
  | .var v, hp, hns, R, h => by
    rw [Decl.resolve_var]
    obtain ⟨hrecorded, hsettled⟩ :=
      Resolver.var_recorded (R := (R.expr v.value).2) h (hns (.var v) mem_cons_self) hp
    refine ⟨hrecorded, fun hclean => ?_⟩
    refine forall_mem_cons.mpr ⟨(hsettled hclean).node rfl, ?_⟩
    exact Resolver.expr_settled h ((Resolver.var_kept _ v).clean hclean)
  | .fn f, hp, hns, R, h => by
    rw [Decl.resolve_fn]
    obtain ⟨hrecorded, hsettled⟩ := Resolver.fn_recorded h (hns (.fn f) mem_cons_self)
    have hstill := f.resolveInside_still hp (R.fn f)
    refine ⟨hstill.scopes ▸ hrecorded, fun hclean => ?_⟩
    refine forall_mem_cons.mpr ⟨?_, ?_⟩
    · rw [Routine.resolveInside_fst]
      exact (hsettled (hstill.clean hclean)).node rfl
    · exact Routine.settled f hp (forall_mem_cons.mp hns).2 hrecorded hclean
  | .cls _, hp, _, _, _ => hp.elim

/-- What is attached to the nodes inside a function or method. -/
theorem Routine.settled : ∀ (f : Routine), f.Plain → (∀ n ∈ f.walkInside fun _ => true, n ∈ ns) →
    ∀ {R : Resolver}, R.scopes.Recorded ns → (f.resolveInside R).2.errors = [] →
      ∀ n ∈ (f.resolveInside R).1.walkInside fun _ => true, n.Settled ns
  | ⟨_, _, _, params, decls, body⟩, hp, hns, R, h, hclean => by
    rw [Routine.walkInside, forall_mem_append, forall_mem_append] at hns
    obtain ⟨⟨hparams, hdecls⟩, -⟩ := hns
    rw [Routine.resolveInside] at hclean ⊢
    dsimp only at hclean ⊢
    have henter : (R.enter []).scopes.Recorded ns := h.enter nofun
    obtain ⟨hrecorded, hsettled⟩ := Resolver.params_recorded henter
      (fun p hp => hparams _ (mem_map_of_mem hp)) hp.2.1 Frame.firstParam
    obtain ⟨hrecorded', hsettled'⟩ := settledDecls decls hp.2.2 hdecls hrecorded
    have hclean' := (Resolver.expr_kept _ body).clean hclean
    rw [Routine.walkInside, forall_mem_append, forall_mem_append]
    refine ⟨⟨?_, hsettled' hclean'⟩, Resolver.expr_settled hrecorded' hclean⟩
    intro n hn
    obtain ⟨p, hpar, rfl⟩ := mem_map.mp hn
    have hparams := hsettled ((resolveDecls_kept decls hp.2.2 _).clean hclean')
    exact (hparams p hpar).node rfl

theorem settledDecls : ∀ (ds : List Decl), AllPlain ds →
    (∀ n ∈ walkDecls (fun _ => true) ds, n ∈ ns) →
    ∀ {R : Resolver}, R.scopes.Recorded ns → (resolveDecls R ds).2.scopes.Recorded ns ∧
      ((resolveDecls R ds).2.errors = [] →
        ∀ n ∈ walkDecls (fun _ => true) (resolveDecls R ds).1, n.Settled ns)
  | [], _, _, R, h => by
    rw [resolveDecls]
    exact ⟨h, fun _ => nofun⟩
  | d :: ds, hp, hns, R, h => by
    rw [walkDecls, forall_mem_append] at hns
    obtain ⟨hrecorded, hsettled⟩ := d.settled hp.1 hns.1 h
    obtain ⟨hrecorded', hsettled'⟩ := settledDecls ds hp.2 hns.2 hrecorded
    rw [resolveDecls_cons, walkDecls]
    refine ⟨hrecorded', fun hclean => forall_mem_append.mpr ⟨?_, hsettled' hclean⟩⟩
    exact hsettled ((resolveDecls_kept ds hp.2 _).clean hclean)

end

/-! ### Classes -/

namespace Resolver

variable {R : Resolver} {cls : Text} {level : Nat} {l : Layout}

/-- The types of fields without errors. -/
theorem fields_settled (h : R.scopes.Recorded ns) {fs : List Field}
    (hclean : (R.fields cls level l fs).2.2.errors = []) :
    ∀ f ∈ (R.fields cls level l fs).1, f.annotation.Settled ns := by
  induction fs generalizing R l with
  | nil => nofun
  | cons f fs ih =>
    have hstill := (R.checkNames_still f.span.start f.annotation.ty).trans
      (placed_still _ f.span.start (l.addField cls level f))
    refine forall_mem_cons.mpr ⟨?_, ih (hstill.scopes ▸ h) hclean⟩
    exact checkNames_settled h ((placed_still _ _ _).clean ((fields_still _ _ _ _ _).clean hclean))

/-- The types that methods without errors return. -/
theorem methods_settled (h : R.scopes.Recorded ns) {ms : List Method}
    (hclean : (R.methods cls level l ms).2.2.errors = []) : ∀ m ∈ ms, m.routine.ret.Settled ns := by
  induction ms generalizing R l with
  | nil => nofun
  | cons m ms ih =>
    have hstill := (R.checkNames_still m.routine.span.start m.routine.ret.ty).trans
      (placed_still _ m.routine.span.start (l.addMethod cls level m.routine m.offset))
    refine forall_mem_cons.mpr ⟨?_, ih (hstill.scopes ▸ h) hclean⟩
    exact checkNames_settled h ((placed_still _ _ _).clean ((methods_still _ _ _ _ _).clean hclean))

end Resolver

theorem mem_walkMethods {m : Method} (h : m ∈ ms) : .method m ∈ walkMethods (fun _ => true) ms := by
  induction ms with
  | nil => cases h
  | cons m' ms ih =>
    obtain ⟨r, offset⟩ := m'
    rw [walkMethods]
    rcases mem_cons.mp h with rfl | h
    · exact mem_append_left _ mem_cons_self
    · exact mem_append_right _ (ih h)

/-- What is attached to the nodes of methods. -/
theorem settledMethods (hplain : ∀ m ∈ ms, m.routine.Plain)
    (hns : ∀ n ∈ walkMethods (fun _ => true) ms, n ∈ ns)
    (hret : ∀ m ∈ ms, m.routine.ret.Settled ns) (h : R.scopes.Recorded ns) {offsets : List Int}
    (hclean : (resolveMethods R offsets ms).2.errors = []) :
    ∀ n ∈ walkMethods (fun _ => true) (resolveMethods R offsets ms).1, n.Settled ns := by
  induction ms generalizing R offsets with
  | nil =>
    rw [resolveMethods]
    nofun
  | cons m ms ih =>
    obtain ⟨f, offset⟩ := m
    obtain ⟨hf, hplain⟩ := forall_mem_cons.mp hplain
    obtain ⟨hfret, hret⟩ := forall_mem_cons.mp hret
    rw [walkMethods, forall_mem_append] at hns
    rw [resolveMethods] at hclean ⊢
    dsimp only at hclean ⊢
    have hstill := f.resolveInside_still hf R
    have hrest := ih hplain hns.2 hret (hstill.scopes ▸ h) hclean
    rw [walkMethods, forall_mem_append]
    refine ⟨forall_mem_cons.mpr ⟨?_, ?_⟩, hrest⟩
    · rw [Routine.resolveInside_fst]
      exact hfret.node rfl
    · exact f.settled hf (fun n hn => hns.1 n (mem_cons_of_mem _ hn)) h
        ((resolveMethods_still ms hplain _ _).clean hclean)

/-- One more class. -/
theorem Scopes.Recorded.declare {c : ClassDecl} {info : ClassInfo} (h : s.Recorded ns)
    (ht : s.tables = [global]) (hc : .cls c ∈ ns) (l : Layout)
    (hinfo : info.entry =
      ⟨info.entry.level, l.ty c.span.start.offset, info.entry.offset, .cls, c.span⟩)
    (hmembers : info.members.Records ns) (super : Option Text) :
    Scopes.Recorded ns ⟨[global.put c.name info.entry], s.context.declare c.name super info⟩ := by
  have hty : l.ty c.span.start.offset ≠ .missing (some .ref) := nofun
  have hentry : info.entry.Records ns c.name := by
    rw [hinfo]
    exact .of_declaration? hc (d := .cls c) rfl hty _ _
  exact ⟨h.put ht hentry, Table.forall_put h.classes ⟨hentry, by rw [hinfo], hmembers⟩⟩

namespace ClassDecl

variable {R : Resolver} {global : Table Entry} {c : ClassDecl}

theorem named_eq (ht : R.scopes.tables = [global]) (hc : c.Clean R global) :
    R.named c = (R.entered c).record c.name (R.superOf c) (R.infoWith c (R.inherit c).2.1) := by
  rw [Resolver.named, Resolver.taken_entered ht, hc.fresh, Option.isSome_none,
    if_neg Bool.false_ne_true]

/-- What a class inherits without errors. -/
theorem inherit_settled (h : R.scopes.Recorded ns) (ht : R.scopes.tables = [global])
    (hc : c.Clean R global) : (R.inherit c).2.1.members.Records ns ∧
      ∀ super, c.super = some super → super ≠ c.name ∧
        ∃ e, (R.inherit c).1 = some e ∧ e.Records ns super ∧ e.kind = .cls := by
  obtain ⟨hnone, heq⟩ | ⟨super, e, info, _, _, _, hsuper, hclass, hinfo, -, heq⟩ :=
    Resolver.inherit_clean hc.inherit
  · rw [heq]
    refine ⟨nofun, fun super hsuper => ?_⟩
    rw [hnone] at hsuper
    cases hsuper
  · rw [heq]
    refine ⟨(h.classes super info hinfo).2.2, fun super' hsuper' => ?_⟩
    obtain rfl : super = super' := Option.some.inj (hsuper.symm.trans hsuper')
    obtain ⟨hentry, hkind⟩ := Scopes.of_class? hclass
    refine ⟨?_, e, rfl, h.entry? hentry, hkind⟩
    rintro rfl
    rw [Scopes.entry?, ht, Scopes.find?, hc.fresh] at hentry
    cases hentry

/-- The members of a class are records. -/
theorem layoutOf_records (hplain : c.Plain)
    (hns : ∀ n ∈ c.fields.map Node.field ++ walkMethods (fun _ => true) c.methods, n ∈ ns)
    (hinherited : (R.inherit c).2.1.members.Records ns) : (R.layoutOf c).members.Records ns := by
  rw [forall_mem_append] at hns
  refine (R.layoutOf_addsAll c).forall_members hinherited ?_
  rw [members, forall_mem_append]
  constructor
  · intro m hm offset
    obtain ⟨f, hf, rfl⟩ := mem_map.mp hm
    have hn := hns.1 (.field f) (mem_map_of_mem hf)
    exact .of_declaration? hn (d := .field f) rfl (Ty.ne_missing (hplain.1 f hf)) _ _
  · intro m hm offset
    obtain ⟨m, hm', rfl⟩ := mem_map.mp hm
    have hn := hns.2 (.method m) (mem_walkMethods hm')
    exact .of_declaration? hn (d := .method m) rfl m.routine.signature_ne_missing _ _

/-- What a class without errors leaves, and what is attached to its nodes. -/
theorem settled (hplain : c.Plain) (hns : ∀ n ∈ c.walk fun _ => true, n ∈ ns)
    (h : R.scopes.Recorded ns) (ht : R.scopes.tables = [global])
    (hclean : (c.resolve R).2.errors = []) :
    (c.resolve R).2.scopes.Recorded ns ∧
      ∀ n ∈ (c.resolve R).1.walk fun _ => true, n.Settled ns := by
  have hc := clean_of_resolve hplain ht hclean
  rw [ClassDecl.walk_eq, Node.under, if_pos rfl, forall_mem_cons] at hns
  obtain ⟨hself, hinner⟩ := hns
  obtain ⟨hinherited, hsuper⟩ := inherit_settled h ht hc
  have hlayout := layoutOf_records hplain hinner hinherited
  have hlaid : (R.laid c).scopes.Recorded ns := by
    rw [R.laid_scopes ht, Resolver.scopesAfter, hc.fresh]
    exact h.declare ht hself _ rfl hlayout _
  have hnamed : (R.named c).scopes.Recorded ns := by
    rw [named_eq ht hc, Resolver.record_eq (by rw [R.entered_scopes, ht]), R.entered_scopes]
    exact h.declare ht hself _ rfl hinherited _
  have hfields := Resolver.fields_settled hnamed hc.fields
  have hmethods := Resolver.methods_settled
    ((Resolver.fields_still _ _ _ _ _).scopes ▸ hnamed) hc.methods
  have hbodies := settledMethods hplain.2 (forall_mem_append.mp hinner).2 hmethods
    (R := c.atBodies R) (hlaid.enter hlayout) hc.bodies
  refine ⟨?_, ?_⟩
  · rwa [ClassDecl.resolve_scopes hplain ht, ← R.laid_scopes ht]
  · rw [ClassDecl.resolve_eq, ClassDecl.walk_eq, Node.under, if_pos rfl, forall_mem_cons,
      forall_mem_append]
    refine ⟨⟨?_, ?_⟩, ?_, hbodies⟩
    · intro m hm hne
      rcases mem_cons.mp hm with rfl | hm
      · exact .inl rfl
      · obtain ⟨super, hs, rfl⟩ := mem_map.mp hm
        obtain ⟨-, e, he, hrecords, hkind⟩ := hsuper super (Option.mem_toList.mp hs)
        exact .inr ⟨e, fun _ => he, hrecords, fun _ => hkind⟩
    · intro c' hc' hs
      cases hc'
      exact (hsuper _ hs).1 rfl
    · intro n hn
      obtain ⟨f, hf, rfl⟩ := mem_map.mp hn
      exact (hfields f hf).node rfl

end ClassDecl

/-- What classes without errors leave, and what is attached to their nodes. -/
theorem settledClasses {cs : List ClassDecl} (hplain : ∀ c ∈ cs, c.Plain)
    (hns : ∀ n ∈ cs.flatMap (ClassDecl.walk fun _ => true), n ∈ ns) (h : R.scopes.Recorded ns)
    (ht : R.scopes.tables = [global]) (hclean : (resolveClasses R cs).2.errors = []) :
    (resolveClasses R cs).2.scopes.Recorded ns ∧
      (∀ n ∈ (resolveClasses R cs).1.flatMap (ClassDecl.walk fun _ => true), n.Settled ns) ∧
      ∀ c ∈ cs, ∃ info, (resolveClasses R cs).2.scopes.context.classes.get? c.name = some info ∧
        info.entry.site = c.span := by
  induction cs generalizing R global with
  | nil => exact ⟨h, nofun, nofun⟩
  | cons c cs ih =>
    obtain ⟨hc, hclean', hplain, hclean⟩ := resolveClasses_cons_clean hplain hclean
    rw [flatMap_cons, forall_mem_append] at hns
    obtain ⟨hrecorded, hsettled⟩ := ClassDecl.settled hc hns.1 h ht hclean'
    have hscopes := (ClassDecl.clean_of_resolve hc ht hclean').scopes hc ht
    have ht' := congrArg Scopes.tables hscopes
    obtain ⟨hrecorded', hsettled', hknown⟩ := ih hplain hns.2 hrecorded ht' hclean
    refine ⟨hrecorded', ?_, forall_mem_cons.mpr ⟨⟨R.infoOf c, ?_, rfl⟩, hknown⟩⟩
    · exact forall_mem_append.mpr ⟨hsettled, hsettled'⟩
    · refine (resolveClasses_get? hplain ht' hclean (Table.get?_put_self _ _ _)).1.trans ?_
      rw [hscopes]
      exact Table.get?_put_self _ _ _

end

/-! ### Programs -/

/-- In a program without scope errors every name stands for something, and the classes that are
known at the end are those of the program. -/
theorem Program.settled {p : Program} (hplain : p.Plain) (hclean : (p.resolve {}).errors = []) :
    (∀ n ∈ (p.resolve {}).program.nodes, n.Settled p.nodes) ∧
      (∀ name info, (p.resolve {}).context.classes.get? name = some info →
        info.entry.Records p.nodes name ∧ info.entry.kind = .cls) ∧
      ∀ c ∈ p.classes, ∃ info, (p.resolve {}).context.classes.get? c.name = some info ∧
        info.entry.site = c.span := by
  let R : Resolver := { scopes := ⟨[[]], {}⟩ }
  have hempty : R.scopes.Recorded p.nodes :=
    ⟨fun _ _ _ hl => (Scopes.locate_empty hl).elim nofun, nofun⟩
  have hns : ∀ n ∈ (Node.program p).below, n ∈ p.nodes := fun n hn => mem_cons_of_mem _ hn
  rw [Node.below, forall_mem_append, forall_mem_append] at hns
  have hdecls := (Resolver.expr_kept _ p.body).clean hclean
  have hclasses := (resolveDecls_kept p.decls hplain.2 _).clean hdecls
  obtain ⟨hrecorded, hsettled, hknown⟩ :=
    settledClasses hplain.1 hns.1.1 (R := R) hempty rfl hclasses
  obtain ⟨hrecorded', hsettled'⟩ := settledDecls p.decls hplain.2 hns.1.2 hrecorded
  have hcontext : (p.resolve {}).context = (resolveClasses R p.classes).2.scopes.context :=
    (resolveDecls_kept p.decls hplain.2 _).context
  refine ⟨?_, ?_, ?_⟩
  · rw [nodes_eq, Node.below, forall_mem_cons, forall_mem_append, forall_mem_append]
    exact ⟨⟨nofun, nofun⟩, ⟨hsettled, hsettled' hdecls⟩, Resolver.expr_settled hrecorded' hclean⟩
  · rw [hcontext]
    intro name info hinfo
    obtain ⟨hentry, hkind, -⟩ := hrecorded.classes name info hinfo
    exact ⟨hentry, hkind⟩
  · rw [hcontext]
    exact hknown

end Foolscap
