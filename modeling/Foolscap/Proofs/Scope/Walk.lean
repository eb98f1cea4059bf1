import Foolscap.Proofs.Scope.Located
import Foolscap.Proofs.Tree.Plain

/-!
# Walks without errors

What the walk that resolves names keeps: the scopes around the current one, the classes, and the
errors found before.  So a walk that ends without errors had none at any point, and every name that
it declared was new.
-/

namespace Foolscap

open List

namespace Resolver

/-- What a part of the walk keeps: the errors found before, the classes, and the scopes around the
current one. -/
structure Kept (r r' : Resolver) : Prop where
  errors : r.errors <+: r'.errors
  context : r'.scopes.context = r.scopes.context
  outer : r'.scopes.tables.tail = r.scopes.tables.tail
  depth : r'.scopes.tables.length = r.scopes.tables.length

namespace Kept

variable {r r' r'' : Resolver}

@[simp] theorem refl (r : Resolver) : Kept r r := ⟨prefix_rfl, rfl, rfl, rfl⟩

theorem trans (h : Kept r r') (h' : Kept r' r'') : Kept r r'' :=
  ⟨h.errors.trans h'.errors, h'.context.trans h.context, h'.outer.trans h.outer,
    h'.depth.trans h.depth⟩

/-- A walk that ends without errors had none before. -/
theorem clean (h : Kept r r') (hc : r'.errors = []) : r.errors = [] := by
  have := h.errors
  rw [hc] at this
  exact prefix_nil.mp this

theorem level_eq (h : Kept r r') : r'.level = r.level := by
  rw [level, level, Scopes.level, Scopes.level, h.depth]

end Kept

/-- What a part of the walk keeps that declares nothing around itself: the errors found before, the
scopes, and the next local offset. -/
structure Still (r r' : Resolver) : Prop where
  errors : r.errors <+: r'.errors
  scopes : r'.scopes = r.scopes
  nextLocal : r'.nextLocal = r.nextLocal

namespace Still

variable {r r' r'' : Resolver}

theorem refl (r : Resolver) : Still r r := ⟨prefix_rfl, rfl, rfl⟩

theorem trans (h : Still r r') (h' : Still r' r'') : Still r r'' :=
  ⟨h.errors.trans h'.errors, h'.scopes.trans h.scopes, h'.nextLocal.trans h.nextLocal⟩

theorem kept (h : Still r r') : Kept r r' :=
  ⟨h.errors, by rw [h.scopes], by rw [h.scopes], by rw [h.scopes]⟩

/-- A walk that ends without errors had none before. -/
theorem clean (h : Still r r') (hc : r'.errors = []) : r.errors = [] := h.kept.clean hc

end Still

variable (r : Resolver)

theorem report_kept (pos : Position) (e : ScopeError) : Kept r (r.report pos e) :=
  ⟨prefix_append _ _, rfl, rfl, rfl⟩

theorem reports_kept (pos : Position) (names : List Text) :
    Kept r (names.foldl (fun r name => r.report pos (.noClass name)) r) := by
  induction names generalizing r with
  | nil => exact .refl r
  | cons name names ih => exact (r.report_kept pos _).trans (ih _)

theorem checkNames_kept (pos : Position) (t : Ty) : Kept r (r.checkNames pos t) :=
  r.reports_kept pos _

theorem install_kept (name : Text) (e : Entry) : Kept r (r.install name e) := by
  rw [install]
  split
  · next t ts ht => exact ⟨prefix_rfl, rfl, by simp [ht], by simp [ht]⟩
  · exact .refl r

theorem declare_kept (pos : Position) (what : Declared) (name : Text) (e : Entry) :
    Kept r (r.declare pos what name e) := by
  rw [declare]
  split
  · exact r.report_kept pos _
  · exact r.install_kept name e

theorem expr_kept (e : Expr) : Kept r (r.expr e).2 := ⟨prefix_append _ _, rfl, rfl, rfl⟩

theorem takeLocal_kept : Kept r r.takeLocal.2 := ⟨prefix_rfl, rfl, rfl, rfl⟩

theorem var_kept (v : VarDecl) : Kept r (r.var v) :=
  (r.checkNames_kept _ _).trans ((takeLocal_kept _).trans (declare_kept _ _ _ _ _))

theorem fn_kept (f : Routine) : Kept r (r.fn f) :=
  (r.checkNames_kept _ _).trans ((takeLocal_kept _).trans (declare_kept _ _ _ _ _))

theorem params_kept (offset : Int) (ps : List Param) : Kept r (r.params offset ps) := by
  induction ps generalizing r offset with
  | nil => exact .refl r
  | cons p ps ih =>
    exact (r.checkNames_kept _ _).trans ((declare_kept _ _ _ _ _).trans (ih _ _))

/-! ### Declaring without errors -/

variable {r}

variable {pos : Position} {name : Text} {t : Table Entry} {ts : List (Table Entry)}

/-- Types are checked without errors if they name classes that are known. -/
theorem unknownClasses_eq_nil {t : Ty} (h : (r.checkNames pos t).errors = []) :
    r.scopes.unknownClasses t = [] := by
  rw [checkNames] at h
  cases hn : r.scopes.unknownClasses t with
  | nil => rfl
  | cons name names =>
    rw [hn] at h
    exact absurd ((reports_kept _ pos names).clean h) (by simp [report])

theorem checkNames_eq {t : Ty} (h : (r.checkNames pos t).errors = []) : r.checkNames pos t = r := by
  rw [checkNames, unknownClasses_eq_nil h]
  rfl

theorem declare_eq {what : Declared} {e : Entry} (h : (r.declare pos what name e).errors = []) :
    r.taken name = false ∧ r.declare pos what name e = r.install name e := by
  rw [declare] at h ⊢
  split at h
  · simp [report] at h
  · next ht => simp [ht]

variable (ht : r.scopes.tables = t :: ts)

include ht

theorem install_eq (name : Text) (e : Entry) :
    r.install name e = { r with scopes := { r.scopes with tables := t.put name e :: ts } } := by
  rw [install, ht]

theorem get?_eq_none_of_taken (h : r.taken name = false) : t.get? name = none := by
  rw [taken, ht] at h
  simpa [Table.has] using h

/-- Declaring a name of a local without errors installs it. -/
theorem declare_takeLocal_eq {what : Declared} {e : Entry}
    (h : (r.takeLocal.2.declare pos what name e).errors = []) :
    t.get? name = none ∧ r.takeLocal.2.declare pos what name e = { r with
      nextLocal := r.nextLocal - 1
      scopes.tables := t.put name e :: ts } := by
  obtain ⟨htaken, hd⟩ := declare_eq h
  have ht' : r.takeLocal.2.scopes.tables = t :: ts := ht
  rw [hd, install_eq ht']
  exact ⟨get?_eq_none_of_taken ht' htaken, rfl⟩

/-- Declaring a variable without errors installs it at the next local offset. -/
theorem var_eq {v : VarDecl} (h : (r.var v).errors = []) :
    t.get? v.name = none ∧ r.var v = { r with
      nextLocal := r.nextLocal - 1
      scopes.tables :=
        t.put v.name ⟨r.level, v.annotation.ty, r.nextLocal, .var, v.span⟩ :: ts } := by
  rw [var] at h ⊢
  have hc := checkNames_eq (((takeLocal_kept _).trans (declare_kept _ _ _ _ _)).clean h)
  rw [hc] at h ⊢
  exact declare_takeLocal_eq ht h

/-- Declaring a function without errors installs it at the next local offset. -/
theorem fn_eq {f : Routine} (h : (r.fn f).errors = []) :
    t.get? f.name = none ∧ r.fn f = { r with
      nextLocal := r.nextLocal - 1
      scopes.tables :=
        t.put f.name ⟨r.level, f.signature, r.nextLocal, .fn, f.span⟩ :: ts } := by
  rw [fn] at h ⊢
  have hc := checkNames_eq (((takeLocal_kept _).trans (declare_kept _ _ _ _ _)).clean h)
  rw [hc] at h ⊢
  exact declare_takeLocal_eq ht h

/-- Declaring a parameter without errors installs it at its offset. -/
theorem params_cons_eq {p : Param} {ps : List Param} {offset : Int}
    (h : (r.params offset (p :: ps)).errors = []) :
    t.get? p.name = none ∧ r.params offset (p :: ps) = Resolver.params { r with
      scopes.tables :=
        t.put p.name ⟨r.level, p.annotation.ty, offset, .par, p.span⟩ :: ts } (offset + 1) ps := by
  rw [params] at h ⊢
  have hd := (params_kept _ _ _).clean h
  have hc := checkNames_eq ((declare_kept _ _ _ _ _).clean hd)
  rw [hc] at hd ⊢
  obtain ⟨htaken, hd⟩ := declare_eq hd
  rw [hd, install_eq ht]
  exact ⟨get?_eq_none_of_taken ht htaken, rfl⟩

end Resolver

/-! ### The walk -/

mutual

theorem Decl.resolve_kept : ∀ (d : Decl), d.Plain → ∀ r : Resolver, r.Kept (d.resolve r).2
  | .var v, _, r => by
    rw [Decl.resolve]
    exact (r.expr_kept v.value).trans (Resolver.var_kept _ v)
  | .fn f, hp, r => by
    rw [Decl.resolve]
    exact (r.fn_kept f).trans (Routine.resolveInside_still f hp (r.fn f)).kept
  | .cls _, hp, _ => hp.elim

/-- After a routine the scopes are as they were before it. -/
theorem Routine.resolveInside_still : ∀ (f : Routine), f.Plain → ∀ r : Resolver,
    r.Still (f.resolveInside r).2
  | ⟨_, _, _, params, decls, body⟩, hp, r => by
    rw [Routine.resolveInside]
    have hparams := (r.enter []).params_kept Frame.firstParam params
    have hdecls := resolveDecls_kept decls hp.2.2 ((r.enter []).params Frame.firstParam params)
    have hall := (hparams.trans hdecls).trans (Resolver.expr_kept _ body)
    refine ⟨hall.errors, ?_, rfl⟩
    have heq : ∀ s s' : Scopes, s.tables.tail = s'.tables → s.context = s'.context →
        Scopes.mk s.tables.tail s.context = s' := by
      rintro s ⟨tables, context⟩ rfl rfl
      rfl
    exact heq _ _ hall.outer hall.context

theorem resolveDecls_kept : ∀ (ds : List Decl), AllPlain ds → ∀ r : Resolver,
    r.Kept (resolveDecls r ds).2
  | [], _, r => .refl r
  | d :: ds, hp, r => by
    rw [resolveDecls]
    exact (Decl.resolve_kept d hp.1 r).trans (resolveDecls_kept ds hp.2 _)

end

/-! ### What is resolved -/

theorem Decl.resolve_var (R : Resolver) (v : VarDecl) :
    (Decl.var v).resolve R =
      (.var { v with value := v.value.bind R.scopes }, (R.expr v.value).2.var v) := by
  rw [Decl.resolve]
  rfl

theorem Decl.resolve_fn (R : Resolver) (r : Routine) :
    (Decl.fn r).resolve R =
      (.fn (r.resolveInside (R.fn r)).1, (r.resolveInside (R.fn r)).2) := by
  rw [Decl.resolve]

theorem resolveDecls_cons (R : Resolver) (x : Decl) (ds : List Decl) :
    resolveDecls R (x :: ds) = ((x.resolve R).1 :: (resolveDecls (x.resolve R).2 ds).1,
      (resolveDecls (x.resolve R).2 ds).2) := by
  rw [resolveDecls]

theorem length_resolveDecls (R : Resolver) (ds : List Decl) :
    (resolveDecls R ds).1.length = ds.length := by
  induction ds generalizing R with
  | nil => rw [resolveDecls]
  | cons x ds ih => rw [resolveDecls_cons, length_cons, length_cons, ih]

/-- The resolver before the declarations of a routine: in a scope with the parameters. -/
abbrev Resolver.inside (R : Resolver) (r : Routine) : Resolver :=
  (R.enter []).params Frame.firstParam r.params

/-- What is resolved inside a routine: its declarations after its parameters, then its body. -/
theorem Routine.resolveInside_fst (r : Routine) (R : Resolver) :
    (r.resolveInside R).1 = ⟨r.span, r.name, r.ret, r.params, (resolveDecls (R.inside r) r.decls).1,
      r.body.bind (resolveDecls (R.inside r) r.decls).2.scopes⟩ := by
  obtain ⟨_, _, _, _, _, _⟩ := r
  rw [Routine.resolveInside]
  rfl

theorem Routine.resolveInside_errors (r : Routine) (R : Resolver) :
    (resolveDecls (R.inside r) r.decls).2.errors <+:
      (r.resolveInside R).2.errors := by
  obtain ⟨_, _, _, _, _, _⟩ := r
  rw [Routine.resolveInside]
  exact prefix_append _ _

mutual

theorem Decl.resolve_plain : ∀ (d : Decl), d.Plain → ∀ r : Resolver, (d.resolve r).1.Plain
  | .var _, hp, r => by rw [Decl.resolve]; exact hp
  | .fn f, hp, r => by rw [Decl.resolve]; exact Routine.resolveInside_plain f hp (r.fn f)
  | .cls _, hp, _ => hp.elim

/-- A plain routine is plain after it was resolved. -/
theorem Routine.resolveInside_plain : ∀ (f : Routine), f.Plain → ∀ r : Resolver,
    (f.resolveInside r).1.Plain
  | ⟨_, _, _, params, decls, _⟩, hp, r => by
    rw [Routine.resolveInside]
    exact ⟨hp.1, hp.2.1,
      resolveDecls_plain decls hp.2.2 ((r.enter []).params Frame.firstParam params)⟩

theorem resolveDecls_plain : ∀ (ds : List Decl), AllPlain ds → ∀ r : Resolver,
    AllPlain (resolveDecls r ds).1
  | [], _, r => by rw [resolveDecls]; trivial
  | d :: ds, hp, r => by
    rw [resolveDecls]
    exact ⟨Decl.resolve_plain d hp.1 r, resolveDecls_plain ds hp.2 _⟩

end

end Foolscap
