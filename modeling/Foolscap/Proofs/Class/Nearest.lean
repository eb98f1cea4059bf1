import Foolscap.Proofs.Assembly.Routines
import Foolscap.Proofs.Class.Acyclic
import Foolscap.Proofs.Class.Tables

/-!
# The nearest declaration of a method

A dispatch table is the one of the superclass with the methods of the class put over it, slot by
slot.  What is in the slot of a method is the label of the declaration that is found by its name on
the way up from the class.
-/

namespace Foolscap

open List ClassDecl

namespace Callable

/-- The declaration of a method in a class. -/
def method? (ds : List Callable) (cls name : Text) : Option Callable :=
  ds.find? fun x => x.owner = some cls && x.routine.name = name

/-- The label of a method that a class declares. -/
def ownLabel (ds : List Callable) (cls name : Text) : Option Label :=
  (method? ds cls name).map label

/-- The declaration of a method that is found on the way up from a class: in the class itself, or
else in the first class above it that declares the name. -/
inductive Nearest (ds : List Callable) (supers : Hierarchy) (name : Text) :
    Text → Callable → Prop where
  | own {cls : Text} {x : Callable} (here : method? ds cls name = some x) :
      Nearest ds supers name cls x
  | above {cls super : Text} {x : Callable} (absent : method? ds cls name = none)
      (extends_ : supers.get? cls = some super) (rest : Nearest ds supers name super x) :
      Nearest ds supers name cls x

variable {ds ds' : List Callable} {cls name : Text} {x : Callable}

theorem method?_append (ds ds' : List Callable) (cls name : Text) :
    method? (ds ++ ds') cls name = (method? ds cls name).or (method? ds' cls name) :=
  List.find?_append

/-- Methods of other classes and functions do not matter. -/
theorem method?_eq_none (h : ∀ x ∈ ds, x.owner ≠ some cls) : method? ds cls name = none := by
  rw [method?, List.find?_eq_none]
  intro x hx
  simp [h x hx]

theorem mem_of_method? (h : method? ds cls name = some x) : x ∈ ds :=
  mem_of_find?_eq_some h

variable {supers : Hierarchy}

/-- There is one nearest declaration. -/
theorem Nearest.unique {y : Callable} (hx : Nearest ds supers name cls x)
    (hy : Nearest ds supers name cls y) : x = y := by
  induction hx with
  | own here =>
    cases hy with
    | own here' => exact Option.some.inj (here.symm.trans here')
    | above absent => rw [here] at absent; cases absent
  | above absent hextends _ ih =>
    cases hy with
    | own here => rw [absent] at here; cases here
    | above _ hextends' rest =>
      obtain rfl := Option.some.inj (hextends.symm.trans hextends')
      exact ih rest

/-- Methods of new classes do not matter for known ones. -/
theorem Nearest.append {supers' : Hierarchy} (known : Text → Prop)
    (h : Nearest ds supers name cls x) (hcls : known cls)
    (hds' : ∀ cls, known cls → ∀ y ∈ ds', y.owner ≠ some cls)
    (hsupers : ∀ cls super, known cls → supers.get? cls = some super →
      known super ∧ supers'.get? cls = some super) : Nearest (ds ++ ds') supers' name cls x := by
  induction h with
  | own here => exact .own (by rw [method?_append, here, Option.some_or])
  | above absent hextends _ ih =>
    obtain ⟨hsuper, hextends'⟩ := hsupers _ _ hcls hextends
    refine .above ?_ hextends' (ih hsuper)
    rw [method?_append, absent, Option.none_or]
    exact method?_eq_none (hds' _ hcls)

theorem Nearest.mem (h : Nearest ds supers name cls x) : x ∈ ds := by
  induction h with
  | own here => exact mem_of_method? here
  | above _ _ _ ih => exact ih

end Callable

open Callable (Nearest method?)

/-! ### Owners -/

mutual

/-- Functions are not methods of a class. -/
theorem Decl.owner_callables : ∀ (d : Decl), d.Plain → ∀ n, ∀ x ∈ d.callables n,
    x.owner = none
  | .var v, _, n => by
    rw [Decl.callables]
    exact fun x hx => absurd hx not_mem_nil
  | .fn r, hp, n => by
    rw [Decl.callables]
    obtain ⟨span, name, ret, params, decls, body⟩ := r
    rw [Routine.callables]
    intro x hx
    rcases mem_cons.mp hx with rfl | hx
    · rfl
    · exact owner_innerCallables decls hp.2.2 _ x hx
  | .cls _, hp, _ => hp.elim

/-- A function that is declared inside of a routine belongs to no class. -/
theorem owner_innerCallables : ∀ (ds : List Decl), AllPlain ds → ∀ n,
    ∀ x ∈ innerCallables n ds, x.owner = none
  | [], _, n => by
    rw [innerCallables]
    exact fun x hx => absurd hx not_mem_nil
  | d :: ds, hp, n => by
    rw [innerCallables]
    intro x hx
    rcases mem_append.mp hx with hx | hx
    · exact Decl.owner_callables d hp.1 n x hx
    · exact owner_innerCallables ds hp.2 _ x hx

end

/-- Of a method and the functions inside it, only the method can be found. -/
theorem Routine.method?_callables {r : Routine} (hp : r.Plain) (cls name : Text) (n : Nat) :
    method? (r.callables (some cls) n) cls name =
      if r.name = name then some ⟨some cls, r, .routine n⟩ else none := by
  obtain ⟨span, own, ret, params, decls, body⟩ := r
  have hinside : method? (innerCallables (n + 1) decls) cls name = none := by
    apply Callable.method?_eq_none
    intro x hx
    rw [owner_innerCallables decls hp.2.2 _ x hx]
    nofun
  rw [Routine.callables, ← singleton_append, Callable.method?_append, hinside,
    Option.or_none]
  by_cases hname : own = name
  · simp [method?, hname]
  · simp [method?, hname]

variable {cls : Text} {ms : List Method}

/-- What the methods of a class declare belongs to the class or is a function. -/
theorem owner_methodCallables (hp : ∀ m ∈ ms, m.routine.Plain) (n : Nat) :
    ∀ x ∈ methodCallables cls n ms, x.owner = some cls ∨ x.owner = none := by
  induction ms generalizing n with
  | nil =>
    rw [methodCallables]
    exact fun x hx => absurd hx not_mem_nil
  | cons m ms ih =>
    obtain ⟨r, offset⟩ := m
    have hr : r.Plain := hp _ mem_cons_self
    rw [methodCallables]
    intro x hx
    rcases mem_append.mp hx with hx | hx
    · obtain ⟨span, own, ret, params, decls, body⟩ := r
      rw [Routine.callables] at hx
      rcases mem_cons.mp hx with rfl | hx
      · exact .inl rfl
      · exact .inr (owner_innerCallables decls hr.2.2 _ x hx)
    · exact ih (forall_mem_cons.mp hp).2 _ x hx

/-- A method that no declaration of a class has is not found. -/
theorem method?_methodCallables_eq_none {name : Text} (hp : ∀ m ∈ ms, m.routine.Plain)
    (hname : ∀ m ∈ ms, m.routine.name ≠ name) (n : Nat) :
    method? (methodCallables cls n ms) cls name = none := by
  induction ms generalizing n with
  | nil =>
    rw [methodCallables]
    rfl
  | cons m ms ih =>
    obtain ⟨r, offset⟩ := m
    have hr : r.Plain := hp _ mem_cons_self
    have hne : r.name ≠ name := hname _ mem_cons_self
    rw [methodCallables, Callable.method?_append, Routine.method?_callables hr,
      if_neg hne, Option.none_or]
    exact ih (forall_mem_cons.mp hp).2
      (forall_mem_cons.mp hname).2 _

/-! ### Slots -/

namespace Layout

/-- A label for a name: the one that some names are given, or else one that a relation allows. -/
def Over (own : Text → Option Label) (D : Text → Label → Prop) (name : Text) (lb : Label) : Prop :=
  match own name with
  | some x => x = lb
  | none => D name lb

namespace Over

variable {own rest : Text → Option Label} {D : Text → Label → Prop} {first name : Text}
  {lb lb₀ : Label}

theorem of_some (h : own name = some lb) : Over own D name lb := by
  rw [Over, h]

theorem of_none (h : own name = none) (hD : D name lb) : Over own D name lb := by
  rw [Over, h]
  exact hD

/-- Labels one over the other, of which the first name is not among the others. -/
theorem cons (h : Over rest (Over (fun name => if first = name then some lb₀ else none) D) name lb)
    (hown : own name = if first = name then some lb₀ else rest name)
    (hfirst : first = name → rest name = none) : Over own D name lb := by
  by_cases hname : first = name
  · rw [Over, hfirst hname] at h
    rw [Over, if_pos hname] at h
    subst h
    exact of_some (by rw [hown, if_pos hname])
  · rw [if_neg hname] at hown
    rw [Over] at h ⊢
    rw [hown]
    cases hrest : rest name with
    | some x =>
      rw [hrest] at h
      exact h
    | none =>
      rw [hrest] at h
      rw [Over, if_neg hname] at h
      exact h

end Over

end Layout

/-! ### The methods of a class -/

namespace Resolver

variable {cls : Text} {level : Nat} {l : Layout}

/-- After a method without errors no other method has its name. -/
theorem methods_name_ne {R : Resolver} {r : Routine} {offset : Int} {ms : List Method}
    (herror : (l.addMethod cls level r offset).error = none)
    (hclean : (R.methods cls level (l.addMethod cls level r offset).layout ms).2.2.errors = [])
    (R' : Resolver) :
    ∀ m ∈ (resolveMethods R' (R.methods cls level (l.addMethod cls level r offset).layout ms).1
      ms).1, m.routine.name ≠ r.name := by
  obtain ⟨-, hdeclared, -⟩ := (l.addMethod_adds cls level r offset).accepted herror
  obtain ⟨-, hne⟩ := (methods_accepts hclean R').declared (hdeclared ▸ mem_cons_self)
  exact fun m hm => hne _ (mem_map_of_mem hm)

end Resolver

theorem Routine.name_resolveInside (r : Routine) (R : Resolver) :
    (r.resolveInside R).1.name = r.name := by
  obtain ⟨span, name, ret, params, decls, body⟩ := r
  rw [Routine.resolveInside]

/-- The methods of a class without errors are put over the inherited ones: a slot holds the label of
the method that the class declares under the name, or what was there before. -/
theorem emitMethods_dispatches {level : Nat} {l : Layout} {R S : Resolver} {g : Emitter}
    {table : List Slot} {D : Text → Label → Prop} (hl : l.Sound)
    (hplain : ∀ m ∈ ms, m.routine.Plain) (hclean : (R.methods cls level l ms).2.2.errors = [])
    (h : l.Dispatches table D) :
    (R.methods cls level l ms).2.1.Dispatches
      (emitMethods g table (resolveMethods S (R.methods cls level l ms).1 ms).1).1
      (Layout.Over (Callable.ownLabel (methodCallables cls g.nextRoutine
        (resolveMethods S (R.methods cls level l ms).1 ms).1) cls) D) := by
  induction ms generalizing R S g l table D with
  | nil =>
    rw [resolveMethods, emitMethods, methodCallables]
    exact h
  | cons m ms ih =>
    obtain ⟨r, offset⟩ := m
    have hr : r.Plain := hplain _ mem_cons_self
    have hms : ∀ m ∈ ms, m.routine.Plain := (forall_mem_cons.mp hplain).2
    have herror := Resolver.error_eq_none_of_placed
      ((Resolver.methods_still _ cls level _ ms).clean hclean)
    have hadds := l.addMethod_adds cls level r offset
    have hslot : (l.addMethod cls level r offset).layout.Dispatches
        (Code.setSlot table (l.addMethod cls level r offset).offset.toNat g.takeRoutine.1)
        (Layout.Over (fun name => if r.name = name then some g.takeRoutine.1 else none) D) :=
      h.addMethod hl herror (.of_some (if_pos rfl)) fun name x hname hx =>
        .of_none (if_neg (Ne.symm hname)) hx
    have hrest := ih (S := (r.resolveInside S).2)
      (g := (r.resolveInside S).1.emit g.takeRoutine.1 g.takeRoutine.2) (hl.adds hadds).1 hms hclean
      hslot
    rw [(Routine.emit_declares (some cls) (r.resolveInside S).1 g).next] at hrest
    rw [Resolver.methods, resolveMethods, emitMethods, methodCallables]
    refine hrest.mono fun name lb hlb => hlb.cons ?_ ?_
    · rw [Callable.ownLabel, Callable.method?_append,
        Routine.method?_callables (Routine.resolveInside_plain r hr S), r.name_resolveInside]
      split <;> rfl
    · -- The class declares the name once, so no later method has it.
      rintro rfl
      rw [Callable.ownLabel, method?_methodCallables_eq_none (resolveMethods_plain ms hms _ _)
        (Resolver.methods_name_ne herror hclean _)]
      rfl

/-! ### Superclasses -/

/-- The superclasses that are recorded are the ones that the classes name. -/
theorem supers_resolveClasses {R : Resolver} {global : Table Entry} {cs : List ClassDecl}
    (h : R.scopes.context.Described global) (ht : R.scopes.tables = [global])
    (hplain : ∀ c ∈ cs, c.Plain) (hclean : (resolveClasses R cs).2.errors = []) :
    ∀ c ∈ (resolveClasses R cs).1,
      (resolveClasses R cs).2.scopes.context.supers.get? c.name = c.super := by
  induction cs generalizing R global with
  | nil => nofun
  | cons c cs ih =>
    obtain ⟨hp, hclean', hcs, hrest⟩ := resolveClasses_cons_clean hplain hclean
    have hc := clean_of_resolve hp ht hclean'
    have hscopes := hc.scopes hp ht
    have ht' := congrArg Scopes.tables hscopes
    refine forall_mem_cons.mpr ⟨?_, ih (h.resolve_clean ht hp hc) ht' hcs hrest⟩
    have hname : (c.resolve R).1.name = c.name := by rw [resolve_eq]
    have hsuper : (c.resolve R).1.super = c.super := by rw [resolve_eq]
    rw [hname, hsuper]
    refine (resolveClasses_get? hcs ht' hrest (Table.get?_put_self _ _ _)).2.trans ?_
    rw [hscopes, Context.get?_supers_declare_self _ _ _
      (h.undeclared _ (h.get?_eq_none hc.fresh))]

/-! ### All classes -/

/-- The label of a nearest declaration. -/
def Callable.NearestLabel (ds : List Callable) (supers : Hierarchy) (cls name : Text)
    (lb : Label) : Prop :=
  ∃ x, x.label = lb ∧ Nearest ds supers name cls x

open Callable (NearestLabel)

/-- What holds of the classes that were resolved and generated so far, given what they declare: the
methods belong to these classes, and the slots of a class hold the labels of the declarations that
are nearest to it. -/
structure Emitter.Inherits (g : Emitter) (R : Resolver) (global : Table Entry) (b : Nat)
    (ds : List Callable) : Prop where
  tabled : g.Tabled R global b
  owners : ∀ x ∈ ds, ∀ cls, x.owner = some cls →
    ∃ info, R.scopes.context.classes.get? cls = some info
  nearest : ∀ cls info l table, R.scopes.context.classes.get? cls = some info → info.LaidBy l →
    g.dispatch.get? cls = some table →
    l.Dispatches table (NearestLabel ds R.scopes.context.supers cls)

namespace Emitter.Inherits

variable {g : Emitter} {R : Resolver} {global : Table Entry} {b : Nat} {c : ClassDecl}
  {ds : List Callable}

theorem empty : Inherits {} { scopes := ⟨[[]], {}⟩ } [] 0 [] where
  tabled := .empty
  owners _ hx := absurd hx not_mem_nil
  nearest _ _ _ _ hinfo := by cases hinfo

variable (h : g.Inherits R global b ds)

include h

theorem ne_of_known (hc : c.Clean R global) {cls : Text}
    (hcls : ∃ info, R.scopes.context.classes.get? cls = some info) : cls ≠ c.name := by
  obtain ⟨info, hinfo⟩ := hcls
  exact h.tabled.described.ne_of_known hc.fresh hinfo

/-- What is nearest to a known class stays so. -/
theorem nearest_kept (hplain : c.Plain) (hc : c.Clean R global) {cls name : Text} {lb : Label}
    (hcls : ∃ info, R.scopes.context.classes.get? cls = some info)
    (hlb : NearestLabel ds R.scopes.context.supers cls name lb) (n : Nat) :
    NearestLabel (ds ++ methodCallables c.name n (c.bodies R).1)
      (c.resolve R).2.scopes.context.supers cls name lb := by
  obtain ⟨x, rfl, hx⟩ := hlb
  refine ⟨x, rfl, hx.append (fun cls => ∃ info, R.scopes.context.classes.get? cls = some info)
    hcls ?_ ?_⟩
  · intro cls hcls y hy howner
    rcases owner_methodCallables (c.bodies_plain hplain R) n y hy with hown | hnone
    · exact h.ne_of_known hc hcls (Option.some.inj (howner.symm.trans hown))
    · rw [hnone] at howner
      cases howner
  · intro cls super hcls hsuper
    rw [hc.scopes hplain h.tabled.tables,
      Context.get?_supers_declare_of_ne _ _ _ (h.ne_of_known hc hcls)]
    exact ⟨h.tabled.described.super_known hsuper, hsuper⟩

/-- What is nearest to one more class: its own declaration, or else what is nearest to its
superclass. -/
theorem nearest_new (hplain : c.Plain) (hc : c.Clean R global) {name : Text} {lb : Label} {n : Nat}
    (hlb : Layout.Over (Callable.ownLabel (methodCallables c.name n (c.bodies R).1) c.name)
      (fun name lb => ∃ super, c.super = some super ∧
        NearestLabel ds R.scopes.context.supers super name lb) name lb) :
    NearestLabel (ds ++ methodCallables c.name n (c.bodies R).1)
      (c.resolve R).2.scopes.context.supers c.name name lb := by
  have hdescribed := h.tabled.described
  have hbefore : method? ds c.name name = none := by
    apply Callable.method?_eq_none
    exact fun x hx howner => h.ne_of_known hc (h.owners x hx c.name howner) rfl
  rw [Layout.Over, Callable.ownLabel] at hlb
  cases hown : method? (methodCallables c.name n (c.bodies R).1) c.name name with
  | some x =>
    rw [hown] at hlb
    exact ⟨x, hlb, .own (by rw [Callable.method?_append, hbefore, hown, Option.none_or])⟩
  | none =>
    rw [hown] at hlb
    obtain ⟨super, hsuper, hlb⟩ := hlb
    obtain ⟨info, -, hinfo, -⟩ :=
      hdescribed.superOf_known h.tabled.tables (hc.superOf_eq.trans hsuper)
    obtain ⟨x, hlabel, hx⟩ := h.nearest_kept hplain hc ⟨info, hinfo⟩ hlb n
    refine ⟨x, hlabel, .above ?_ ?_ hx⟩
    · rw [Callable.method?_append, hbefore, hown, Option.none_or]
    · rw [hc.scopes hplain h.tabled.tables, Context.get?_supers_declare_self _ _ _
        (hdescribed.undeclared _ (hdescribed.get?_eq_none hc.fresh)), hsuper]

/-- A class starts from the table of its superclass. -/
theorem dispatches_inherit (c : ClassDecl) :
    (R.inherit c).2.1.Dispatches (g.inherited c.super) fun name lb =>
      ∃ super, c.super = some super ∧ NearestLabel ds R.scopes.context.supers super name lb := by
  refine ⟨(h.tabled.inherited c).2, ?_⟩
  obtain ⟨-, -, hempty⟩ | ⟨super, info, l, hsuper, hinfo, hlaid, -, -, heq⟩ :=
    h.tabled.described.inherit_cases h.tabled.tables c
  · rw [hempty]
    nofun
  · obtain ⟨-, table, -, -, -, -, hget, -⟩ := h.tabled.layout super info hinfo
    rw [heq, hsuper, Emitter.inherited, hget]
    exact ((h.nearest super info l table hinfo hlaid hget).mono
      fun name lb hlb => ⟨super, rfl, hlb⟩).slot

/-- The table of one more class: its own methods are put over those of its superclass. -/
theorem dispatches_layoutOf (hplain : c.Plain) (hc : c.Clean R global) :
    (R.layoutOf c).Dispatches (emitMethods g (g.inherited c.super) (c.bodies R).1).1
      (Layout.Over (Callable.ownLabel (methodCallables c.name g.nextRoutine (c.bodies R).1) c.name)
        fun name lb => ∃ super, c.super = some super ∧
          NearestLabel ds R.scopes.context.supers super name lb) :=
  emitMethods_dispatches (h.tabled.sound_fields c) hplain.2 hc.methods
    ((h.dispatches_inherit c).fields _ _)

/-- One more class without errors. -/
theorem resolve (hplain : c.Plain) (hc : c.Clean R global) :
    ((c.resolve R).1.code g).2.Inherits (c.resolve R).2 (global.put c.name (R.infoOf c).entry)
      (b + c.weight) (ds ++ methodCallables c.name g.nextRoutine (c.bodies R).1) := by
  have hscopes := hc.scopes hplain h.tabled.tables
  refine ⟨h.tabled.resolve hplain hc, ?_, ?_⟩
  · intro x hx cls howner
    rw [hscopes, Context.classes_declare]
    rcases mem_append.mp hx with hx | hx
    · have hcls := h.owners x hx cls howner
      rw [Table.get?_put_of_ne _ _ (h.ne_of_known hc hcls)]
      exact hcls
    · rcases owner_methodCallables (c.bodies_plain hplain R) _ x hx with hown | hnone
      · obtain rfl := Option.some.inj (hown.symm.trans howner)
        exact ⟨_, Table.get?_put_self _ _ _⟩
      · rw [hnone] at howner
        cases howner
  · intro cls info l table hinfo hlaid htable
    rw [dispatch_code hplain] at htable
    rw [hscopes] at hinfo
    obtain ⟨rfl, rfl⟩ | ⟨hname, hinfo⟩ := Table.get?_put_eq_some.mp hinfo
    · rw [Table.get?_put_self] at htable
      obtain rfl := Option.some.inj htable
      have hown : (R.infoOf c).LaidBy (R.layoutOf c) := ⟨rfl, _, rfl⟩
      exact ((h.dispatches_layoutOf hplain hc).mono
        fun name lb hlb => h.nearest_new hplain hc hlb).laidBy hown hlaid
    · rw [Table.get?_put_of_ne _ _ hname] at htable
      exact (h.nearest cls info l table hinfo hlaid htable).mono
        fun name lb hlb => h.nearest_kept hplain hc ⟨info, hinfo⟩ hlb _

/-- All classes without errors. -/
protected theorem resolveClasses {cs : List ClassDecl} (hplain : ∀ c ∈ cs, c.Plain)
    (hclean : (resolveClasses R cs).2.errors = []) :
    ∃ global', (codeClasses g (resolveClasses R cs).1).2.Inherits
      (resolveClasses R cs).2 global' (b + (cs.map weight).sum)
      (ds ++ classCallables g.nextRoutine (resolveClasses R cs).1) := by
  induction cs generalizing g R global b ds with
  | nil =>
    rw [resolveClasses, classCallables, append_nil]
    exact ⟨global, h⟩
  | cons c cs ih =>
    obtain ⟨hp, hclean', hcs, hrest⟩ := resolveClasses_cons_clean hplain hclean
    have hc := clean_of_resolve hp h.tabled.tables hclean'
    obtain ⟨global', h'⟩ := ih (h.resolve hp hc) hcs hrest
    have hname : (c.resolve R).1.name = c.name := by rw [resolve_eq]
    have hmethods : (c.resolve R).1.methods = (c.bodies R).1 := by rw [resolve_eq]
    rw [← hname, ← hmethods, ((c.resolve R).1.code_declares g).next] at h'
    rw [resolveClasses, codeClasses, classCallables, map_cons, sum_cons,
      ← Nat.add_assoc, ← append_assoc]
    exact ⟨global', h'⟩

end Emitter.Inherits

end Foolscap
