import Foolscap.Proofs.Class.Overrides
import Foolscap.Proofs.Simulation.World

/-!
# Known classes

A class is laid out three times: the walk that resolves names gives each member its place, the shape
of the class lists its fields and methods, and the code generator fills the dispatch table.  All
three agree, for all classes of a program, declared one after the other.
-/

namespace Foolscap

open List Table ClassDecl

/-- A dispatch table without empty slots is a list of labels. -/
theorem Code.map_some_filterMap {table : List Slot} (h : ∀ s ∈ table, s.isSome) :
    (table.filterMap id).map some = table := by
  induction table with
  | nil => rfl
  | cons s table ih =>
    obtain ⟨hs, hrest⟩ := forall_mem_cons.mp h
    obtain ⟨lb, rfl⟩ := Option.isSome_iff_exists.mp hs
    exact congrArg (some lb :: ·) (ih hrest)

theorem Table.get?_map {α β : Type} (f : α → β) (t : Table α) (name : Text) :
    get? (t.map fun row => (row.1, f row.2)) name = (t.get? name).map f := by
  induction t with
  | nil => rfl
  | cons row t ih =>
    obtain ⟨n, a⟩ := row
    rw [map_cons, get?_cons, get?_cons, ih]
    split
    · rfl
    · rfl

theorem getElem?_concat_eq_some {α : Type} {xs : List α} {a b : α} {i : Nat} :
    (xs ++ [a])[i]? = some b ↔ xs[i]? = some b ∨ i = xs.length ∧ a = b := by
  rcases Nat.lt_trichotomy i xs.length with h | rfl | h
  · simp [List.getElem?_append_left h, Nat.ne_of_lt h]
  · simp
  · have hout : (xs ++ [a]).length ≤ i := by rwa [length_append]
    simp [List.getElem?_eq_none hout, Nat.ne_of_gt h, Nat.le_of_lt h]

/-! ### Layouts and shapes -/

namespace Layout

/-- A layout, a shape and a dispatch table agree.  The parameter says what is known of a method,
given the class that declares it and its label. -/
structure Agrees (M : Text → Label → Routine → Prop) (l : Layout) (shape : ClassShape)
    (table : List Slot) : Prop where
  field : ∀ (i : Nat) name, shape.fields[i]? = some name ↔
    ∃ e, l.members.get? name = some e ∧ e.kind = .field ∧ e.offset = Frame.place .field i
  method : ∀ name t, (∃ owner r, shape.methods.get? name = some (owner, r) ∧ r.signature = t) ↔
    ∃ e, l.members.get? name = some e ∧ e.kind = .method ∧ e.ty = t
  count : shape.methods.length = l.methods.length
  slots : l.Dispatches table fun name lb =>
    ∃ owner r, shape.methods.get? name = some (owner, r) ∧ M owner lb r

namespace Agrees

variable {M M' : Text → Label → Routine → Prop} {l l' : Layout} {shape : ClassShape}
  {table : List Slot} {cls : Text} {level : Nat}

theorem empty : Agrees M {} {} [] where
  field := by simp
  method := by simp
  count := rfl
  slots := ⟨.nil, nofun⟩

variable (h : l.Agrees M shape table)

include h

theorem mono (hM : ∀ owner lb r, M owner lb r → M' owner lb r) : l.Agrees M' shape table :=
  { h with
    slots := h.slots.mono fun _ lb hlb => by
      obtain ⟨owner, r, hget, hr⟩ := hlb
      exact ⟨owner, r, hget, hM owner lb r hr⟩ }

/-- What the context knows of a class tells its layout, up to what the class declares itself. -/
theorem laidBy {info : ClassInfo} (hl : info.LaidBy l) (hl' : info.LaidBy l') :
    l'.Agrees M shape table := by
  have hmembers : l'.members = l.members := hl'.members.symm.trans hl.members
  have hmethods : l'.methods = l.methods := hl'.types_eq hl .method
  exact ⟨hmembers ▸ h.field, hmembers ▸ h.method, hmethods ▸ h.count, h.slots.laidBy hl hl'⟩

/-- There are as many names of fields as types. -/
theorem length_fields (hl : l.Sound) : l.fields.length = shape.fields.length := by
  have hiff : ∀ i, i < l.fields.length ↔ i < shape.fields.length := by
    intro i
    constructor
    · intro hi
      obtain ⟨name, e, he, hk, hoffset⟩ := (hl.fills .field).filled i hi
      exact (List.getElem?_eq_some_iff.mp ((h.field i name).mpr ⟨e, he, hk, hoffset⟩)).1
    · intro hi
      obtain ⟨e, he, hk, hoffset⟩ := (h.field i _).mp (List.getElem?_eq_getElem hi)
      exact (List.getElem?_eq_some_iff.mp (hl.type_eq he hk hoffset)).1
  have h₁ := hiff l.fields.length
  have h₂ := hiff shape.fields.length
  omega

theorem nodup_fields : shape.fields.Nodup := by
  refine nodup_iff_getElem?_ne_getElem?.mpr fun i j hij hj heq => ?_
  rw [List.getElem?_eq_getElem hj] at heq
  obtain ⟨e, he, -, hi⟩ := (h.field i _).mp heq
  obtain ⟨e', he', -, hj'⟩ := (h.field j _).mp (List.getElem?_eq_getElem hj)
  obtain rfl := Option.some.inj (he.symm.trans he')
  exact absurd (Frame.place_injective .field (hi.symm.trans hj')) (Nat.ne_of_lt hij)

/-- A field without errors has a position in the shape, new or not. -/
theorem addField (hl : l.Sound) {f : Field} (hclean : (l.addField cls level f).error = none) :
    (l.addField cls level f).layout.Agrees M
      ⟨if f.name ∈ shape.fields then shape.fields else shape.fields ++ [f.name], shape.methods⟩
      table := by
  have hadds := l.addField_adds cls level f
  have hmethods : (l.addField cls level f).layout.methods = l.methods :=
    (hadds.types_cases .method).resolve_right nofun
  have hother : ∀ {name e}, e.kind = .method →
      ((l.addField cls level f).layout.members.get? name = some e ↔
        l.members.get? name = some e) :=
    fun hk => hadds.get?_of_kind_ne (by rw [hk]; nofun)
  refine ⟨fun i name => ?_, fun name t => (h.method name t).trans ?_, hmethods ▸ h.count,
    hmethods ▸ h.slots.filled, fun name e he hk => h.slots.slot name e ((hother hk).mp he) hk⟩
  · have hlength : (l.types .field).length = shape.fields.length := h.length_fields hl
    cases hadds with
    | redeclared _ _ _ herror | clash _ _ _ _ _ herror => exact absurd hclean herror
    | fresh _ hunknown hmembers _ _ _ _ hoffset =>
      have hnew : f.name ∉ shape.fields := by
        intro hmem
        obtain ⟨j, hj⟩ := List.getElem?_of_mem hmem
        obtain ⟨e, he, -⟩ := (h.field j _).mp hj
        rw [hunknown] at he
        cases he
      rw [if_neg hnew, hmembers]
      by_cases hname : name = f.name
      · subst hname
        have hnot : shape.fields[i]? ≠ some f.name := fun hi => hnew (mem_of_getElem? hi)
        have hplace : (l.addField cls level f).offset = Frame.place .field i ↔
            i = shape.fields.length := by
          rw [hoffset, ← hlength]
          exact ⟨fun heq => (Frame.place_injective .field heq).symm, fun heq => heq ▸ rfl⟩
        simp [getElem?_concat_eq_some, hnot, hplace, Field.member]
      · rw [get?_put_of_ne _ _ hname, ← h.field]
        simp [getElem?_concat_eq_some, Ne.symm hname]
    | @override e₀ _ _ hold hkind _ hmembers _ _ _ _ hoffset =>
      obtain ⟨j, hj, -⟩ := (hl.fills .field).placed _ e₀ hold hkind
      rw [if_pos (mem_of_getElem? ((h.field j _).mpr ⟨e₀, hold, hkind, hj⟩)), h.field, hmembers]
      by_cases hname : name = f.name
      · subst hname
        rw [get?_put_self, hold]
        simp [hkind, hoffset, Field.member]
      · rw [get?_put_of_ne _ _ hname]
  · refine exists_congr fun e => and_congr_left ?_
    rintro ⟨hk, -⟩
    exact (hother hk).symm

/-- A method without errors is in the shape and in its slot. -/
theorem addMethod (hl : l.Sound) {r : Routine} {offset : Int} {lb : Label} (hM : M cls lb r)
    (hclean : (l.addMethod cls level r offset).error = none) :
    (l.addMethod cls level r offset).layout.Agrees M
      ⟨shape.fields, shape.methods.put r.name (cls, r)⟩
      (Code.setSlot table (l.addMethod cls level r offset).offset.toNat lb) := by
  have hadds := l.addMethod_adds cls level r offset
  have hmembers := (hadds.accepted hclean).2.2
  refine ⟨fun i name => (h.field i name).trans ?_, fun name t => ?_, ?_, ?_⟩
  · have hother : ∀ {e}, e.kind = .field →
        ((l.addMethod cls level r offset).layout.members.get? name = some e ↔
          l.members.get? name = some e) :=
      fun hk => hadds.get?_of_kind_ne (by rw [hk]; nofun)
    refine exists_congr fun e => and_congr_left ?_
    rintro ⟨hk, -⟩
    exact (hother hk).symm
  · rw [hmembers]
    by_cases hname : name = r.name
    · subst hname
      simp [Routine.member]
    · simp only [get?_put_of_ne _ _ hname, h.method name t]
  · cases hadds with
    | redeclared _ _ _ herror | clash _ _ _ _ _ herror => exact absurd hclean herror
    | fresh _ hunknown _ _ htypes =>
      have hnew : shape.methods.get? r.name = none := by
        by_contra hsome
        obtain ⟨m, hm⟩ := Option.ne_none_iff_exists'.mp hsome
        obtain ⟨e, he, -⟩ := (h.method r.name _).mp ⟨m.1, m.2, hm, rfl⟩
        rw [hunknown] at he
        cases he
      have hmethods : (l.addMethod cls level r offset).layout.methods =
          l.methods ++ [r.signature] := htypes
      rw [hmethods, put_of_none hnew, length_append, length_append, h.count]
      rfl
    | @override e₀ _ _ hold hkind _ _ _ htypes =>
      obtain ⟨owner, r₀, hget, -⟩ := (h.method r.name e₀.ty).mpr ⟨e₀, hold, hkind, rfl⟩
      rw [length_put_of_some hget, h.count]
      exact ((congrArg List.length htypes).trans length_set).symm
  · refine h.slots.addMethod hl hclean ⟨cls, r, get?_put_self _ _ _, hM⟩ ?_
    rintro name x hname ⟨owner, r', hget, hr'⟩
    exact ⟨owner, r', (get?_put_of_ne _ _ hname).trans hget, hr'⟩

/-- The fields of a class, one after the other. -/
theorem fields {R : Resolver} {fs : List Field} (hl : l.Sound)
    (hclean : (R.fields cls level l fs).2.2.errors = []) :
    (R.fields cls level l fs).2.1.Agrees M ⟨ClassShape.addFields shape.fields fs, shape.methods⟩
      table := by
  induction fs generalizing R l shape with
  | nil => exact h
  | cons f fs ih =>
    have herror := Resolver.error_eq_none_of_placed
      ((Resolver.fields_still _ cls level _ fs).clean hclean)
    exact ih (h.addField hl herror) (hl.adds (l.addField_adds cls level f)).1 hclean

/-- The methods of a class, one after the other, given what is known of those that were resolved in
some scopes, checked and generated. -/
theorem methods {L : Loaded} {R R' : Resolver} {g : Emitter} {k : List Line} {ms : List Method}
    (hl : l.Sound) (hplain : ∀ m ∈ ms, m.routine.Plain)
    (hclean : (R.methods cls level l ms).2.2.errors = []) (hsite : Site L.context R'.scopes)
    (hinside : (resolveMethods R' (R.methods cls level l ms).1 ms).2.errors = [])
    (hquiet : Typing.Quiet
      (checkMethods L.context.supers (resolveMethods R' (R.methods cls level l ms).1 ms).1))
    (hemitted : (emitMethods g table
      (resolveMethods R' (R.methods cls level l ms).1 ms).1).2.routines ++ k <:+ L.lines)
    (hM : ∀ R'' lb r, R''.scopes = R'.scopes → L.Emitted R'' lb r → M cls lb r) :
    (R.methods cls level l ms).2.1.Agrees M
      ⟨shape.fields, ClassShape.addMethods cls shape.methods ms⟩
      (emitMethods g table (resolveMethods R' (R.methods cls level l ms).1 ms).1).1 := by
  induction ms generalizing R R' g l shape table with
  | nil =>
    rw [resolveMethods, emitMethods]
    exact h
  | cons m ms ih =>
    obtain ⟨r, offset⟩ := m
    obtain ⟨hr, hms⟩ := forall_mem_cons.mp hplain
    have herror := Resolver.error_eq_none_of_placed
      ((Resolver.methods_still _ cls level _ ms).clean hclean)
    rw [Resolver.methods] at hclean hinside hquiet hemitted ⊢
    rw [resolveMethods] at hinside hquiet hemitted ⊢
    rw [checkMethods, Typing.quiet_append] at hquiet
    rw [emitMethods] at hemitted ⊢
    have hstill := Routine.resolveInside_still r hr R'
    have hroutine : L.Emitted R' g.takeRoutine.1 r := by
      refine ⟨hr, hsite, (resolveMethods_still ms hms _ _).clean hinside, ⟨true, hquiet.1⟩,
        g.takeRoutine.2, ?_⟩
      obtain ⟨later, hlater⟩ := emitMethods_isPrefix _
        ((r.resolveInside R').1.emit g.takeRoutine.1 g.takeRoutine.2) _
      exact ⟨later ++ k, by rw [← append_assoc, hlater]; exact hemitted⟩
    exact ih (h.addMethod hl (hM R' _ r rfl hroutine) herror)
      (hl.adds (l.addMethod_adds cls level r offset)).1 hms hclean (hstill.scopes ▸ hsite) hinside
      hquiet.2 hemitted fun R'' lb f hscopes => hM R'' lb f (hscopes.trans hstill.scopes)

end Agrees

end Layout

/-! ### Known classes -/

namespace Loaded

/-- What a method of a class, declared there or above, is known to be. -/
def HasMethod (L : Loaded) (cls owner : Text) (l : Label) (r : Routine) : Prop :=
  L.context.supers.isSubclass cls owner ∧ L.MethodOK owner l r

/-- What holds of the classes declared so far, in a program that is loaded with all of them: they
conform to their superclasses, and every class has its members where its shape and its dispatch
table have them. -/
structure Known (L : Loaded) (g : Emitter) (R : Resolver) (global : Table Entry) (b : Nat)
    (shapes : Table ClassShape) : Prop where
  tabled : g.Tabled R global b
  conforming : R.Conforming global L.context.supers
  nodup : g.dispatch.names.Nodup
  next : R.nextLocal = -2 - (g.dispatch.length : Int)
  placed : ∀ cls info, R.scopes.context.classes.get? cls = some info →
    ∃ table earlier later, g.dispatch.get? cls = some table ∧
      g.dispatch = earlier ++ (cls, table) :: later ∧
      info.entry.offset = -2 - (earlier.length : Int)
  agrees : ∀ cls info l table, R.scopes.context.classes.get? cls = some info → info.LaidBy l →
    g.dispatch.get? cls = some table →
    ∃ shape, shapes.get? cls = some shape ∧ l.Agrees (L.HasMethod cls) shape table

namespace Known

variable {L : Loaded} {g : Emitter} {R : Resolver} {global : Table Entry} {b : Nat}
  {shapes : Table ClassShape} {c : ClassDecl}

theorem empty (L : Loaded) : L.Known {} { scopes := ⟨[[]], {}⟩ } [] 0 [] where
  tabled := .empty
  conforming := .empty _
  nodup := .nil
  next := rfl
  placed _ _ hinfo := by cases hinfo
  agrees _ _ _ _ hinfo := by cases hinfo

section

variable (h : L.Known g R global b shapes)

include h

/-- What a class inherits agrees with the shape and the dispatch table that it starts from. -/
theorem agrees_inherit (hc : c.Clean R global)
    (hextends : ∀ super, c.super = some super → L.context.supers.Extends c.name super) :
    (R.inherit c).2.1.Agrees (L.HasMethod c.name) (ClassShape.inherited shapes c.super)
      (g.inherited c.super) := by
  cases hsuper : c.super with
  | none =>
    rw [Resolver.inherit, hsuper]
    exact .empty
  | some super =>
    obtain ⟨info, l, hinfo, hlaid, -, heq⟩ :=
      h.tabled.described.superOf_known h.tabled.tables (hc.superOf_eq.trans hsuper)
    obtain ⟨-, table, -, -, -, -, hget, -⟩ := h.tabled.layout super info hinfo
    obtain ⟨shape, hshape, hagrees⟩ := h.agrees super info l table hinfo hlaid hget
    rw [heq, ClassShape.inherited, hshape, Emitter.inherited, hget]
    refine hagrees.mono fun owner lb r hr => ⟨?_, hr.2⟩
    exact Hierarchy.isSubclass_trans
      (Hierarchy.isSubclass_iff.mpr (.single (hextends super hsuper))) hr.1

/-- The scopes around the methods of a class. -/
theorem site (hc : c.Clean R global)
    (hconforming : (c.resolve R).2.Conforming (global.put c.name (R.infoOf c).entry)
      L.context.supers) (hscopes : (c.resolve R).2.scopes = (R.laid c).scopes)
    (hfinal : ∀ name info, (c.resolve R).2.scopes.context.classes.get? name = some info →
      L.context.classes.get? name = some info) : Site L.context (c.atBodies R).scopes := by
  have hown : (c.resolve R).2.scopes.context.classes.get? c.name = some (R.infoOf c) := by
    rw [hscopes, hc.laid_scopes h.tabled.tables]
    exact get?_put_self _ _ _
  have hlength : (c.atBodies R).scopes.tables.length = 2 :=
    congrArg (·.tables.length + 1) (hc.laid_scopes h.tabled.tables)
  refine ⟨?_, ?_, ?_, fun name info hinfo => hfinal name info (hscopes ▸ hinfo)⟩
  · intro name i e hl
    rw [hlength]
    rcases hc.locate_atBodies h.tabled.tables hl with ⟨rfl, hget⟩ | ⟨rfl, hget⟩
    · exact (hconforming.levels _ _ hown).2 name e hget
    · exact (hconforming.entry hget).2.1
  · intro name i e hl
    rcases hc.locate_atBodies h.tabled.tables hl with ⟨rfl, hget⟩ | ⟨rfl, hget⟩
    · exact (hconforming.bears _ _ hown name e hget).1
    · exact (hconforming.entry hget).2.2.1
  · intro name i e hl hkind
    rcases hc.locate_atBodies h.tabled.tables hl with ⟨rfl, hget⟩ | ⟨rfl, hget⟩
    · obtain ⟨l, hlaid, hsound, -⟩ := hconforming.described.laid _ _ hown
      have hmember : (R.infoOf c).members.get? name = some e := hget
      rcases hsound.kind (hlaid.members ▸ hmember) with hk | hk <;> rw [hkind] at hk <;> cases hk
    · obtain ⟨-, -, -, info, hinfo, hentry⟩ := hconforming.entry hget
      exact ⟨info, hfinal name info hinfo, hentry⟩

/-- One more class. -/
theorem resolve (hplain : c.Plain) (hc : c.Clean R global)
    (hfinal : ∀ name info, (c.resolve R).2.scopes.context.classes.get? name = some info →
      L.context.classes.get? name = some info)
    (hextends : ∀ super, c.super = some super → L.context.supers.Extends c.name super)
    (hquiet : Typing.Quiet ((c.resolve R).1.check L.context.supers)) {k : List Line}
    (hemitted : ((c.resolve R).1.code g).2.routines ++ k <:+ L.lines) :
    L.Known ((c.resolve R).1.code g).2 (c.resolve R).2 (global.put c.name (R.infoOf c).entry)
      (b + c.weight) (shapes.put c.name ((ClassShape.inherited shapes c.super).extend c)) := by
  have hscopes := hc.scopes hplain h.tabled.tables
  have hconforming := h.conforming.resolve hplain hc hquiet
  have hdispatch := (c.dispatch_code (R := R) (g := g) hplain).trans
    (put_of_none (h.tabled.get?_dispatch hc) _)
  have hagrees : (R.layoutOf c).Agrees (L.HasMethod c.name)
      ((ClassShape.inherited shapes c.super).extend c)
      (emitMethods g (g.inherited c.super) (c.bodies R).1).1 := by
    rw [resolve_eq, check, Typing.quiet_append] at hquiet
    rw [resolve_eq, code] at hemitted
    have hfields := (h.agrees_inherit hc hextends).fields
      (h.tabled.described.sound_inherit h.tabled.tables c) hc.fields
    refine hfields.methods (h.tabled.sound_fields c) hplain.2 hc.methods
      (h.site hc hconforming (hscopes.trans (hc.laid_scopes h.tabled.tables).symm) hfinal) hc.bodies
      hquiet.1 hemitted fun R' lb r hscopes' hr => ?_
    refine ⟨Hierarchy.isSubclass_refl _, R.infoOf c, R', global.put c.name (R.infoOf c).entry,
      hfinal _ _ ?_, ?_, fun name e he => (hconforming.entry he).1, hr⟩
    · rw [hscopes]
      exact get?_put_self _ _ _
    · rw [hscopes']
      exact congrArg (_ :: ·.tables) (hc.laid_scopes h.tabled.tables)
  refine ⟨h.tabled.resolve hplain hc, hconforming, ?_, ?_, ?_, ?_⟩
  · rw [dispatch_code hplain]
    exact names_put_nodup h.nodup _ _
  · rw [c.resolve_nextLocal, h.next, hdispatch, length_append, length_singleton]
    omega
  · intro cls info hinfo
    rw [hscopes] at hinfo
    obtain ⟨rfl, rfl⟩ | ⟨hname, hinfo⟩ := get?_put_eq_some.mp hinfo
    · refine ⟨_, g.dispatch, [], ?_, hdispatch, h.next⟩
      rw [dispatch_code hplain, get?_put_self]
    · obtain ⟨table, earlier, later, hget, hsplit, hoffset⟩ := h.placed cls info hinfo
      obtain ⟨row, hrow⟩ : ∃ row, ((c.resolve R).1.code g).2.dispatch = g.dispatch ++ row :=
        ⟨_, hdispatch⟩
      refine ⟨table, earlier, later ++ row, ?_, ?_, hoffset⟩
      · rw [dispatch_code hplain, get?_put_of_ne _ _ hname, hget]
      · rw [hrow, hsplit, append_assoc, cons_append]
  · intro cls info l table hinfo hlaid htable
    rw [dispatch_code hplain] at htable
    rw [hscopes] at hinfo
    obtain ⟨rfl, rfl⟩ | ⟨hname, hinfo⟩ := get?_put_eq_some.mp hinfo
    · rw [get?_put_self] at htable
      obtain rfl := Option.some.inj htable
      have hown : (R.infoOf c).LaidBy (R.layoutOf c) := ⟨rfl, _, rfl⟩
      exact ⟨_, get?_put_self _ _ _, hagrees.laidBy hown hlaid⟩
    · rw [get?_put_of_ne _ _ hname] at htable ⊢
      exact h.agrees cls info l table hinfo hlaid htable

/-- All classes. -/
protected theorem resolveClasses {cs : List ClassDecl} (hplain : ∀ c ∈ cs, c.Plain)
    (hclean : (resolveClasses R cs).2.errors = [])
    (hcontext : (resolveClasses R cs).2.scopes.context = L.context)
    (hquiet : Typing.Quiet
      ((resolveClasses R cs).1.flatMap (check L.context.supers))) {k : List Line}
    (hemitted : (codeClasses g (resolveClasses R cs).1).2.routines ++ k <:+ L.lines) :
    ∃ global' b', L.Known (codeClasses g (resolveClasses R cs).1).2
      (resolveClasses R cs).2 global' b' (ClassShape.table shapes cs) := by
  induction cs generalizing R g global b shapes with
  | nil => exact ⟨global, b, h⟩
  | cons c cs ih =>
    obtain ⟨hp, hclean', hcs, hrest⟩ := resolveClasses_cons_clean hplain hclean
    have hc := clean_of_resolve hp h.tabled.tables hclean'
    have hscopes := hc.scopes hp h.tabled.tables
    rw [resolveClasses] at hcontext hquiet hemitted ⊢
    rw [codeClasses] at hemitted ⊢
    rw [flatMap_cons, Typing.quiet_append] at hquiet
    have hdescribed := h.tabled.described.resolve_clean h.tabled.tables hp hc
    -- What is known of this class and of those before it stays until the end.
    have hstays : ∀ {name info}, (c.resolve R).2.scopes.context.classes.get? name = some info →
        L.context.classes.get? name = (c.resolve R).2.scopes.context.classes.get? name ∧
          L.context.supers.get? name = (c.resolve R).2.scopes.context.supers.get? name := by
      intro name info hinfo
      rw [← hcontext]
      exact resolveClasses_get? hcs (congrArg Scopes.tables hscopes) hrest
        (by rw [hdescribed.entry, hinfo]; rfl)
    have hextends : ∀ super, c.super = some super → L.context.supers.Extends c.name super := by
      intro super hsuper
      rw [Hierarchy.Extends, (hstays (by rw [hscopes]; exact get?_put_self _ _ _)).2, hscopes,
        Context.get?_supers_declare_self _ _ _ (h.tabled.described.undeclared _
          (h.tabled.described.get?_eq_none hc.fresh)), hsuper]
    obtain ⟨later, hlater⟩ := codeClasses_isPrefix (resolveClasses (c.resolve R).2 cs).1
      ((c.resolve R).1.code g).2
    have h' := h.resolve hp hc (fun name info hinfo => (hstays hinfo).1.trans hinfo) hextends
      hquiet.1 (k := later ++ k) (by rw [← append_assoc, hlater]; exact hemitted)
    exact ih h' hcs hrest hcontext hquiet.2 hemitted

end

/-! ### Worlds -/

/-- Where the members of a class are. -/
theorem classOK (h : L.Known g R global b L.shapes) (hcontext : R.scopes.context = L.context)
    (htables : L.tables = g.dispatch.map fun row => (row.1, row.2.filterMap id)) {cls : Text}
    {info : ClassInfo} (hinfo : L.context.classes.get? cls = some info) :
    ∃ shape labels, L.ClassOK cls info shape labels := by
  rw [← hcontext] at hinfo
  obtain ⟨l, table, hlaid, hsound, -, -, hget, hfilled⟩ := h.tabled.layout cls info hinfo
  obtain ⟨shape, hshape, hagrees⟩ := h.agrees cls info l table hinfo hlaid hget
  have hfields : info.fieldTypes = l.fields := by
    obtain ⟨origin, hty⟩ := hlaid.ty
    rw [ClassInfo.fieldTypes, hty, Layout.ty]
  obtain ⟨table', earlier, later, hget', hsplit, hoffset⟩ := h.placed cls info hinfo
  obtain rfl := Option.some.inj (hget.symm.trans hget')
  refine ⟨shape, table.filterMap id, hcontext ▸ hinfo, hshape, ?_, ?_, ?_, hagrees.nodup_fields,
    ?_, ?_, fun name e he => (h.conforming.bears cls info hinfo name e he).1, ?_, ?_, ?_, ?_⟩
  · rw [htables, get?_map, hget]
    rfl
  · rw [htables, hsplit, map_append, map_cons]
    exact ⟨_, _, rfl, by rw [hoffset, length_map]⟩
  · obtain ⟨origin, hty⟩ := hlaid.ty
    exact ⟨origin, l.methods, by rw [hfields, hty, Layout.ty]⟩
  · rw [hfields]
    exact hagrees.length_fields hsound
  · rw [hfields]
    exact fun t ht => (h.conforming.bears_types hinfo .field t (hlaid.types_layout .field ▸ ht)).1
  · rw [hlaid.members]
    exact fun name e he => hsound.kind he
  · intro name hname
    obtain ⟨i, hi⟩ := List.getElem?_of_mem hname
    obtain ⟨e, he, hk, -⟩ := (hagrees.field i name).mp hi
    exact ⟨e, hlaid.members ▸ he, hk⟩
  · rw [hlaid.members, hfields]
    intro name e he hk
    obtain ⟨i, hi, htype⟩ := (hsound.fills .field).placed name e he hk
    exact ⟨i, hi, (hagrees.field i name).mpr ⟨e, he, hk, hi⟩, htype⟩
  · rw [hlaid.members]
    intro name e he hk
    obtain ⟨j, lb, hj, hslot, owner, r, hr, hmethod⟩ := hagrees.slots.slot name e he hk
    obtain ⟨owner', r', hr', hsignature⟩ := (hagrees.method name e.ty).mpr ⟨e, he, hk, rfl⟩
    obtain ⟨-, rfl⟩ := Prod.mk.inj (Option.some.inj (hr.symm.trans hr'))
    refine ⟨j, owner, r, lb, hj, hsignature.symm, hr, ?_, hmethod⟩
    rw [← Code.map_some_filterMap hfilled.slots, List.getElem?_map] at hslot
    obtain ⟨lb', hlb', heq⟩ := Option.map_eq_some_iff.mp hslot
    rw [hlb', Option.some.inj heq]

/-- A class has the members of the class that it inherits from. -/
theorem refines (h : L.Known g R global b L.shapes) (hcontext : R.scopes.context = L.context)
    (htables : L.tables = g.dispatch.map fun row => (row.1, row.2.filterMap id)) {cls super : Text}
    (hextends : L.context.supers.Extends cls super) : L.Refines cls super := by
  intro info' shape' labels' hok'
  have hinfo' := hok'.info_eq
  rw [Hierarchy.Extends, ← hcontext] at hextends
  rw [← hcontext] at hinfo'
  have hdescribed := h.tabled.described
  obtain ⟨info, hinfo⟩ : ∃ info, R.scopes.context.classes.get? cls = some info := by
    cases hget : R.scopes.context.classes.get? cls with
    | some info => exact ⟨info, rfl⟩
    | none =>
      rw [hdescribed.undeclared cls hget] at hextends
      cases hextends
  obtain ⟨shape, labels, hok⟩ := h.classOK hcontext htables (hcontext ▸ hinfo)
  obtain ⟨l, hlaid, hsound, hsuper⟩ := hdescribed.laid cls info hinfo
  obtain ⟨info'', l', hget, hlaid', hsound', hkeeps⟩ := hsuper super hextends
  obtain rfl := Option.some.inj (hinfo'.symm.trans hget)
  have hconforms := h.conforming.direct cls info super info' hinfo hextends hinfo'
  refine ⟨info, shape, labels, hok, ?_, ?_, ?_⟩
  · rw [prefix_iff_getElem?]
    intro i hi
    have hname : shape'.fields[i]? = some shape'.fields[i] := List.getElem?_eq_getElem hi
    obtain ⟨e', he', hk'⟩ := hok'.field_mem _ (getElem_mem hi)
    obtain ⟨j, hj, hat, -⟩ := hok'.field _ e' he' hk'
    obtain rfl : i = j := (List.getElem?_inj hi hok'.nodup).mp (hname.trans hat.symm)
    obtain ⟨e, he, hoffset, hk⟩ := hkeeps.member _ e' (hlaid'.members ▸ he')
    obtain ⟨j, hj', hat', -⟩ := hok.field _ e (hlaid.members ▸ he) (hk.trans hk')
    obtain rfl : i = j := by omega
    exact hat'
  · have htypes : ∀ info : ClassInfo, info.types .field = info.fieldTypes := by
      intro info
      unfold ClassInfo.types ClassInfo.fieldTypes
      cases info.entry.ty <;> rfl
    rw [← htypes, ← htypes]
    exact hconforms .field
  · intro name e' he' hk'
    rw [hlaid'.members] at he'
    obtain ⟨e, he, hoffset, hk⟩ := hkeeps.member name e' he'
    obtain ⟨j, hj, htype⟩ := (hsound'.fills .method).placed name e' he' hk'
    obtain ⟨got, hgot, hsub⟩ := hconforms .method j e'.ty (hlaid'.types_layout .method ▸ htype)
    rw [hlaid.types_layout, hsound.type_eq he (hk.trans hk') (hoffset.trans hj)] at hgot
    obtain rfl := Option.some.inj hgot
    exact ⟨e, hlaid.members ▸ he, hk.trans hk', hoffset, hsub⟩

end Known

end Loaded

end Foolscap
