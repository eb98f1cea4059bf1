import Foolscap.Proofs.Class.Tables
import Foolscap.Proofs.Scope.Silent
import Foolscap.Proofs.Typing.Ill

/-!
# The walk makes sense everywhere

Over a tree in which no type and no expression is missing, the walk that resolves names always makes
sense, also after errors: every type in the scopes is complete, and all it reports are scope errors.
Where it reports nothing, the checks of what it resolved end with type errors only, and the code of
what it resolved has no gap.
-/

namespace Foolscap

open List Typing

/-! ### Complete members -/

/-- Members of complete types. -/
def Table.Complete (members : Table Entry) : Prop :=
  ∀ name e, members.get? name = some e → e.ty.isComplete

theorem Table.Complete.empty : Table.Complete [] := fun _ _ h => nomatch h

/-! ### The state of the walk -/

theorem Expr.phase_scopeErrors {s : Scopes} {e : Expr} :
    ∀ d ∈ e.scopeErrors s, d.phase = .scoping := by
  intro d hd
  obtain ⟨part, -, hpart⟩ := mem_filterMap.mp hd
  obtain ⟨err, -, rfl⟩ := Option.map_eq_some_iff.mp hpart
  rfl

namespace Resolver

/-- The walk made sense so far: all types in the scopes are complete, nothing was missing, and only
scope errors were reported. -/
structure Sane (R : Resolver) : Prop where
  complete : R.scopes.Complete
  unbroken : R.broken = false
  scoping : ∀ d ∈ R.errors, d.phase = .scoping

namespace Sane

variable {R R' : Resolver} (h : R.Sane)

include h

theorem silent (hs : R.Silent R') (hc : R'.scopes.Complete) : R'.Sane :=
  ⟨hc, hs.broken.trans h.unbroken, hs.scoping h.scoping⟩

theorem expr (e : Expr) : (R.expr e).2.Sane := by
  refine ⟨h.complete, ?_, ?_⟩
  · have hnone : e.parts.any R.scopes.isShapeless = false :=
      any_eq_false.mpr fun part _ => by rw [h.complete.isShapeless_eq_false]; nofun
    rw [Resolver.expr, h.unbroken, hnone]
    rfl
  · intro d hd
    exact (mem_append.mp hd).elim (h.scoping d) (Expr.phase_scopeErrors d)

theorem checkNames (pos : Position) (t : Ty) : (R.checkNames pos t).Sane :=
  h.silent (R.checkNames_silent pos t) (by rw [(R.checkNames_still pos t).scopes]; exact h.complete)

theorem declare {e : Entry} (he : e.ty.isComplete) (pos : Position) (what : Declared)
    (name : Text) : (R.declare pos what name e).Sane := by
  refine h.silent (R.declare_silent pos what name e) ?_
  rw [Resolver.declare]
  split
  · exact h.complete
  · rw [Resolver.install]
    split
    · next t ts ht => exact h.complete.put ht he name
    · exact h.complete

theorem takeLocal : R.takeLocal.2.Sane := ⟨h.complete, h.unbroken, h.scoping⟩

theorem enter {table : Table Entry} (ht : table.Complete) : (R.enter table).Sane :=
  h.silent (R.enter_silent table) (h.complete.enter ht)

theorem var {v : VarDecl} (hv : v.annotation.ty.isComplete) : (R.var v).Sane :=
  (h.checkNames _ _).takeLocal.declare hv _ _ _

theorem fn {f : Routine} (hf : f.Plain) : (R.fn f).Sane :=
  (h.checkNames _ _).takeLocal.declare hf.signature _ _ _

theorem params (offset : Int) {ps : List Param} (hps : ∀ p ∈ ps, p.annotation.ty.isComplete) :
    (R.params offset ps).Sane := by
  induction ps generalizing R offset with
  | nil => exact h
  | cons p ps ih =>
    exact ih ((h.checkNames _ _).declare (hps p mem_cons_self) _ _ _) _
      (forall_mem_cons.mp hps).2

end Sane

/-- What a part of the walk leads to makes sense for the steps after it: the walk itself made sense,
and where it reported nothing the checks of what it resolved end with type errors only, and there is
no gap in it. -/
structure Checkable (R : Resolver) (check : Hierarchy → List Halt) (gap : Option Gap) : Prop where
  sane : R.Sane
  ill : R.errors = [] → ∀ h, Typing.Ill (check h)
  gap : R.errors = [] → gap = none

/-- An expression whose names all denote something has no gap. -/
theorem Sane.gap?_expr {R : Resolver} (h : R.Sane) {e : Expr} (he : e.Whole)
    (hclean : (R.expr e).2.errors = []) : (R.expr e).1.gap? = none :=
  e.gap?_bind h.complete he (Expr.resolves_of_scopeErrors (append_eq_nil_iff.mp hclean).2)

end Resolver

open Resolver

/-! ### Declarations -/

mutual

/-- The check of a declaration that was resolved without errors ends with types or with type
errors, and the declaration has no gap. -/
theorem Decl.checkable : ∀ (d : Decl), d.Plain → d.Whole → ∀ {R : Resolver}, R.Sane →
    (d.resolve R).2.Checkable (fun h => (d.resolve R).1.check h) (d.resolve R).1.gap?
  | .var v, hp, hw, R, hR => by
    rw [Decl.resolve_var]
    refine ⟨(hR.expr v.value).var hp, fun _ h => ?_, fun hclean => ?_⟩
    · have hcomplete : v.annotation.ty.isComplete := hp
      rw [Decl.check, Typing.var, if_pos hcomplete]
      exact Typing.conforms_ill (Expr.typeOf_bind_ends hR.complete v.value) hw _
        fun _ => ⟨_, _, rfl⟩
    · rw [Decl.gap?]
      exact hR.gap?_expr hw ((var_kept _ v).clean hclean)
  | .fn f, hp, hw, R, hR => by
    have hf := Routine.checkable false f hp hw (hR.fn hp)
    rw [Decl.resolve_fn]
    refine ⟨hf.sane, fun hclean h => ?_, fun hclean => ?_⟩
    · rw [Decl.check]
      exact hf.ill hclean h
    · rw [Decl.gap?]
      exact hf.gap hclean
  | .cls _, hp, _, _, _ => hp.elim

/-- Functions and methods. -/
theorem Routine.checkable (isMethod : Bool) : ∀ (f : Routine), f.Plain → f.Whole →
    ∀ {R : Resolver}, R.Sane →
      (f.resolveInside R).2.Checkable (fun h => (f.resolveInside R).1.check h isMethod)
        (f.resolveInside R).1.gap?
  | ⟨span, name, ret, params, decls, body⟩, hp, hw, R, hR => by
    have hparams := (hR.enter .empty).params Frame.firstParam hp.2.1
    have hdecls := checkableDecls decls hp.2.2 hw.1 hparams
    have hbody := hdecls.sane.expr body
    have hstill := Routine.resolveInside_still ⟨span, name, ret, params, decls, body⟩ hp R
    rw [Routine.resolveInside] at hstill ⊢
    refine ⟨hbody.silent (leave_silent _ _) (hstill.scopes ▸ hR.complete), fun hclean h => ?_,
      fun hclean => ?_⟩
    · rw [Routine.check, if_pos (by exact hp.signature)]
      exact ill_append (hdecls.ill ((expr_kept _ body).clean hclean) h)
        (conforms_ill (Expr.typeOf_bind_ends hdecls.sane.complete body) hw.2 _
          fun _ => ⟨_, _, rfl⟩)
    · rw [Routine.gap?, hdecls.gap ((expr_kept _ body).clean hclean),
        hdecls.sane.gap?_expr hw.2 hclean]
      rfl

/-- Declarations one after the other. -/
theorem checkableDecls : ∀ (ds : List Decl), AllPlain ds → DeclsWhole ds → ∀ {R : Resolver},
    R.Sane → (resolveDecls R ds).2.Checkable (fun h => checkDecls h (resolveDecls R ds).1)
      (gapDecls? (resolveDecls R ds).1)
  | [], _, _, R, hR => by
    rw [resolveDecls]
    exact ⟨hR, fun _ _ => ill_nil, fun _ => rfl⟩
  | d :: ds, hp, hw, R, hR => by
    have hd := Decl.checkable d hp.1 hw.1 hR
    have hds := checkableDecls ds hp.2 hw.2 hd.sane
    rw [resolveDecls_cons]
    refine ⟨hds.sane, fun hclean h => ?_, fun hclean => ?_⟩
    · rw [checkDecls]
      exact ill_append (hd.ill ((resolveDecls_kept ds hp.2 _).clean hclean) h)
        (hds.ill hclean h)
    · rw [gapDecls?, hd.gap ((resolveDecls_kept ds hp.2 _).clean hclean), hds.gap hclean]
      rfl

end

/-! ### Classes -/

/-- The methods of a class, one after the other, if their slots are slots of the class wherever
nothing was reported. -/
theorem checkableMethods {R : Resolver} (hR : R.Sane) (offsets : List Int) {ms : List Method}
    (hplain : ∀ m ∈ ms, m.routine.Plain) (hwhole : ∀ m ∈ ms, m.routine.Whole)
    (hslots : (resolveMethods R offsets ms).2.errors = [] →
      ∀ m ∈ (resolveMethods R offsets ms).1, 0 ≤ m.offset) :
    (resolveMethods R offsets ms).2.Checkable
      (fun h => checkMethods h (resolveMethods R offsets ms).1)
      (gapMethods? (resolveMethods R offsets ms).1) := by
  induction ms generalizing R offsets with
  | nil =>
    rw [resolveMethods]
    exact ⟨hR, fun _ _ => ill_nil, fun _ => rfl⟩
  | cons m ms ih =>
    obtain ⟨r, offset⟩ := m
    have hplain' : ∀ m ∈ ms, m.routine.Plain := (forall_mem_cons.mp hplain).2
    have hr := Routine.checkable true r (hplain _ mem_cons_self)
      (hwhole _ mem_cons_self) hR
    rw [resolveMethods] at hslots
    have hms := ih hr.sane offsets.tail hplain' (forall_mem_cons.mp hwhole).2
      fun hclean m hm => hslots hclean m (mem_cons_of_mem _ hm)
    have hbefore := (resolveMethods_still ms hplain' (r.resolveInside R).2 offsets.tail).clean
    rw [resolveMethods]
    refine ⟨hms.sane, fun hclean h => ?_, fun hclean => ?_⟩
    · rw [checkMethods]
      exact ill_append (hr.ill (hbefore hclean) h) (hms.ill hclean h)
    · rw [gapMethods?, hr.gap (hbefore hclean), hms.gap hclean,
        if_neg (Int.not_lt.mpr (hslots hclean _ mem_cons_self))]
      rfl

namespace ClassDecl

variable {R : Resolver} {global : Table Entry} {c : ClassDecl}

/-- The members of a class have complete types, the inherited ones included. -/
theorem complete_layoutOf (hR : R.Sane) (hd : R.scopes.context.Described global)
    (ht : R.scopes.tables = [global]) (hplain : c.Plain) :
    (R.layoutOf c).members.Complete ∧ (R.infoOf c).entry.ty.isComplete := by
  have hadds := R.layoutOf_addsAll c
  have hinherited : (R.inherit c).2.1.members.Complete := by
    obtain ⟨-, -, hempty⟩ | ⟨super, info, l, -, hinfo, hlaid, -, -, heq⟩ := hd.inherit_cases ht c
    · rw [hempty]
      exact .empty
    · rw [heq]
      intro name e he
      exact hR.complete.members super info hinfo name e (hlaid.members ▸ he)
  have hcomplete : (R.layoutOf c).members.Complete :=
    hadds.forall_members hinherited fun m hm _ => (hplain.bears hm).1
  exact ⟨hcomplete, ((hd.sound_inherit ht c).addsAll hadds).isComplete_ty hcomplete _⟩

/-- The scopes are complete after a class was declared. -/
theorem complete_scopesAfter (hR : R.Sane) (hd : R.scopes.context.Described global)
    (ht : R.scopes.tables = [global]) (hplain : c.Plain) : (R.scopesAfter global c).Complete := by
  obtain ⟨hmembers, hentry⟩ := complete_layoutOf hR hd ht hplain
  rw [Resolver.scopesAfter]
  split
  · exact hR.complete
  · exact ⟨(hR.complete.put ht hentry c.name).entry, Table.forall_put hR.complete.members hmembers⟩

/-- The members of a class without errors lie at positions of the class. -/
theorem Clean.placed (hc : c.Clean R global) (hd : R.scopes.context.Described global)
    (ht : R.scopes.tables = [global]) :
    ∀ m ∈ memberEntries (R.level + 1) (R.laidFields c).1 (c.bodies R).1,
      ∃ i, m.2.offset = Frame.place m.2.kind i := by
  intro m hm
  have hsound := (hd.sound_inherit ht c).addsAll (R.layoutOf_addsAll c)
  obtain ⟨i, hi, -⟩ := (hsound.fills m.2.kind).placed _ _ (hc.accepts.get? m hm) rfl
  exact ⟨i, hi⟩

/-- The check of the members that a class redeclares ends with type errors only. -/
theorem refines_ill (hd : R.scopes.context.Described global) (ht : R.scopes.tables = [global])
    (hc : c.Clean R global) (h : Hierarchy) :
    Typing.Ill (refines h c.name (R.laidFields c).1 (c.bodies R).1
      (some (R.infoOf c).entry) (R.inherit c).1) := by
  have hkeeps := (R.layoutOf_addsAll c).keeps.length
  have hplaced := hc.placed hd ht
  obtain ⟨-, hnone, -⟩ | ⟨_, info, l, -, -, ⟨-, origin, hty⟩, -, -, heq⟩ := hd.inherit_cases ht c
  · rw [hnone]
    exact ill_nil
  · rw [heq] at hkeeps ⊢
    rw [refines, hty]
    refine ill_append (ill_flatMap fun f hf => ?_) (ill_flatMap fun m hm => ?_)
    · obtain ⟨i, hi⟩ := hplaced _ (mem_append_left _ (mem_map_of_mem hf))
      rw [refinesField, show Frame.fieldPosition f.offset = i from Frame.fieldPosition_of_place hi]
      exact refinesAt_ill (hkeeps .field) i
    · obtain ⟨i, hi⟩ := hplaced _ (mem_append_right _ (mem_map_of_mem hm))
      rw [refinesMethod, show m.offset = i from hi]
      exact refinesAt_ill (hkeeps .method) i

/-- Classes. -/
theorem checkable (hR : R.Sane) (hd : R.scopes.context.Described global)
    (ht : R.scopes.tables = [global]) (hplain : c.Plain)
    (hwhole : ∀ m ∈ c.methods, m.routine.Whole) :
    (c.resolve R).2.Checkable (fun h => (c.resolve R).1.check h) (c.resolve R).1.gap? := by
  have hafter := complete_scopesAfter hR hd ht hplain
  have hlaid : (R.laid c).Sane :=
    hR.silent (R.laid_silent (hd.sound_inherit ht c)) (R.laid_scopes ht c ▸ hafter)
  have hat : (c.atBodies R).Sane := hlaid.enter (complete_layoutOf hR hd ht hplain).1
  have hslots : (c.bodies R).2.errors = [] → ∀ m ∈ (c.bodies R).1, 0 ≤ m.offset := by
    intro hclean m hm
    obtain ⟨i, hi⟩ := (clean_of_bodies hplain ht hclean).placed hd ht _
      (mem_append_right _ (mem_map_of_mem hm))
    rw [show m.offset = i from hi]
    exact Int.natCast_nonneg i
  have hbodies := checkableMethods hat (R.laidMethods c).1 hplain.2 hwhole hslots
  refine ⟨?_, fun hclean h => ?_, fun hclean => ?_⟩
  · have hscopes := resolve_scopes hplain ht
    rw [resolve_eq] at hscopes ⊢
    exact hbodies.sane.silent ((leave_silent _ _).trans (note_silent _ _ _)) (hscopes ▸ hafter)
  · have hc := clean_of_resolve hplain ht hclean
    rw [resolve_eq, ClassDecl.check]
    exact ill_append (hbodies.ill hc.bodies h) (refines_ill hd ht hc h)
  · rw [resolve_eq, ClassDecl.gap?]
    exact hbodies.gap (clean_of_resolve hplain ht hclean).bodies

end ClassDecl

/-- Classes one after the other. -/
theorem checkableClasses {R : Resolver} {global : Table Entry} (hR : R.Sane)
    (hd : R.scopes.context.Described global) (ht : R.scopes.tables = [global])
    {cs : List ClassDecl} (hplain : ∀ c ∈ cs, c.Plain)
    (hwhole : ∀ c ∈ cs, ∀ m ∈ c.methods, m.routine.Whole) :
    (resolveClasses R cs).2.Checkable
      (fun h => (resolveClasses R cs).1.flatMap (ClassDecl.check h))
      (gapClasses? (resolveClasses R cs).1) := by
  induction cs generalizing R global with
  | nil => exact ⟨hR, fun _ _ => ill_nil, fun _ => rfl⟩
  | cons c cs ih =>
    have hplain' : ∀ c ∈ cs, c.Plain := (forall_mem_cons.mp hplain).2
    have hc := ClassDecl.checkable hR hd ht (hplain c mem_cons_self)
      (hwhole c mem_cons_self)
    obtain ⟨global', ht', hd'⟩ := hd.resolve ht (hplain c mem_cons_self)
    have hcs := ih hc.sane hd' ht' hplain' (forall_mem_cons.mp hwhole).2
    have hbefore : (resolveClasses R (c :: cs)).2.errors = [] → (c.resolve R).2.errors = [] :=
      fun hclean => prefix_nil.mp (hclean ▸ resolveClasses_errors hplain' (c.resolve R).2)
    refine ⟨hcs.sane, fun hclean h => ?_, fun hclean => ?_⟩
    · rw [resolveClasses, flatMap_cons]
      exact ill_append (hc.ill (hbefore hclean) h) (hcs.ill hclean h)
    · rw [resolveClasses, gapClasses?, hc.gap (hbefore hclean), hcs.gap hclean]
      rfl

end Foolscap
