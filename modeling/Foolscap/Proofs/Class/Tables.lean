import Foolscap.Proofs.Assembly.Offsets
import Foolscap.Proofs.Class.Described

/-!
# Dispatch tables

The code generator fills the dispatch table of a class from the offsets that its methods were given.
In a program without scope errors every slot of every table is filled, and no offset is larger than
the number of declared names.
-/

namespace Foolscap

open List ClassDecl

/-! ### Slots -/

namespace Code

theorem setSlot_of_lt {table : List Slot} {slot : Nat} (h : slot < table.length) (l : Label) :
    setSlot table slot l = table.set slot (some l) := by
  have hpad : slot + 1 - table.length = 0 := by omega
  rw [setSlot, hpad, replicate_zero, append_nil]

theorem setSlot_length (table : List Slot) (l : Label) :
    setSlot table table.length l = table ++ [some l] := by
  rw [setSlot, Nat.add_sub_cancel_left, replicate_one,
    set_append_right _ _ (Nat.le_refl _), Nat.sub_self]
  rfl

/-- A dispatch table with a number of slots, none of them empty. -/
structure Filled (n : Nat) (table : List Slot) : Prop where
  length : table.length = n
  slots : ∀ s ∈ table, s.isSome

namespace Filled

variable {n : Nat} {table : List Slot}

theorem nil : Filled 0 [] := ⟨rfl, nofun⟩

/-- A method takes the place of another one. -/
theorem set (h : Filled n table) (slot : Nat) (l : Label) : Filled n (table.set slot (some l)) := by
  refine ⟨by rw [length_set, h.length], fun s hs => ?_⟩
  rcases mem_or_eq_of_mem_set hs with hs | rfl
  · exact h.slots s hs
  · rfl

/-- A method comes after the last slot. -/
theorem concat (h : Filled n table) (l : Label) : Filled (n + 1) (table ++ [some l]) := by
  refine ⟨by rw [length_append, h.length, length_singleton], ?_⟩
  exact forall_mem_append.mpr ⟨h.slots, forall_mem_singleton.mpr rfl⟩

end Filled

end Code

namespace Layout

/-- The dispatch table of a layout is filled, and the slot of every method holds a label that a
relation allows for its name. -/
structure Dispatches (l : Layout) (table : List Slot) (D : Text → Label → Prop) : Prop where
  filled : Code.Filled l.methods.length table
  slot : ∀ name e, l.members.get? name = some e → e.kind = .method →
    ∃ (j : Nat) (lb : Label), e.offset = j ∧ table[j]? = some (some lb) ∧ D name lb

namespace Dispatches

variable {l l' : Layout} {table : List Slot} {D D' : Text → Label → Prop} {cls : Text} {level : Nat}

/-- A filled table holds some label for every method. -/
theorem of_filled (hl : l.Sound) (hfilled : Code.Filled l.methods.length table) :
    l.Dispatches table fun _ _ => True := by
  refine ⟨hfilled, fun name e he hk => ?_⟩
  obtain ⟨j, hj, htype⟩ := (hl.fills .method).placed name e he hk
  have hlt : j < table.length := hfilled.length ▸ (List.getElem?_eq_some_iff.mp htype).1
  obtain ⟨lb, hlb⟩ := Option.isSome_iff_exists.mp (hfilled.slots _ (getElem_mem hlt))
  exact ⟨j, lb, hj, by rw [List.getElem?_eq_getElem hlt, hlb], trivial⟩

theorem mono (h : l.Dispatches table D) (hD : ∀ name lb, D name lb → D' name lb) :
    l.Dispatches table D' := by
  refine ⟨h.filled, fun name e he hk => ?_⟩
  obtain ⟨j, lb, hj, hslot, hlb⟩ := h.slot name e he hk
  exact ⟨j, lb, hj, hslot, hD name lb hlb⟩

/-- Fields do not matter. -/
theorem fields (h : l.Dispatches table D) (R : Resolver) (fs : List Field) :
    (R.fields cls level l fs).2.1.Dispatches table D := by
  have hadds := R.fields_addsAll cls level l fs
  have hkinds : ∀ m ∈ fs.map fun f => (f.name, f.member level), EntryKind.method ≠ m.2.kind := by
    intro m hm
    obtain ⟨f, -, rfl⟩ := mem_map.mp hm
    nofun
  have hmethods : (R.fields cls level l fs).2.1.methods = l.methods := hadds.types_of_ne hkinds
  exact ⟨hmethods ▸ h.filled,
    hadds.forall_members h.slot fun m hm _ hk => absurd hk.symm (hkinds m hm)⟩

/-- A method without errors goes into its slot, new or not. -/
theorem addMethod (h : l.Dispatches table D) (hl : l.Sound) {r : Routine} {offset : Int}
    {lb : Label} (hclean : (l.addMethod cls level r offset).error = none) (hown : D' r.name lb)
    (hothers : ∀ name x, name ≠ r.name → D name x → D' name x) :
    (l.addMethod cls level r offset).layout.Dispatches
      (Code.setSlot table (l.addMethod cls level r offset).offset.toNat lb) D' := by
  have hlength : table.length = (l.types .method).length := h.filled.length
  cases l.addMethod_adds cls level r offset with
  | redeclared _ _ _ herror | clash _ _ _ _ _ herror => exact absurd hclean herror
  | fresh _ hunknown hmembers _ htypes _ _ hoffset =>
    have hlast : (l.addMethod cls level r offset).offset = (table.length : Int) := by
      rw [hlength]
      exact hoffset
    have hmethods : (l.addMethod cls level r offset).layout.methods = l.methods ++ [r.signature] :=
      htypes
    refine ⟨?_, ?_⟩
    · rw [hmethods, length_append, hlast, Int.toNat_natCast, Code.setSlot_length]
      exact h.filled.concat lb
    · rw [hmembers, hlast, Int.toNat_natCast, Code.setSlot_length]
      intro name e he hk
      obtain ⟨rfl, rfl⟩ | ⟨hname, he⟩ := Table.get?_put_eq_some.mp he
      · exact ⟨table.length, lb, rfl, List.getElem?_concat_length, hown⟩
      · obtain ⟨j, x, hj, hslot, hx⟩ := h.slot name e he hk
        exact ⟨j, x, hj, getElem?_append_of_some hslot _, hothers name x hname hx⟩
  | @override e₀ _ _ hold hkind _ hmembers _ htypes _ _ hoffset =>
    obtain ⟨i, hi, htype⟩ := (hl.fills .method).placed _ e₀ hold hkind
    have hslot : (l.addMethod cls level r offset).offset = (i : Int) := hoffset.trans hi
    have hlt : i < table.length := hlength ▸ (List.getElem?_eq_some_iff.mp htype).1
    have hmethods : (l.addMethod cls level r offset).layout.methods.length = l.methods.length :=
      (congrArg List.length htypes).trans length_set
    refine ⟨?_, ?_⟩
    · rw [hmethods, hslot, Int.toNat_natCast, Code.setSlot_of_lt hlt]
      exact h.filled.set i lb
    · rw [hmembers, hslot, Int.toNat_natCast, Code.setSlot_of_lt hlt]
      intro name e he hk
      obtain ⟨rfl, rfl⟩ | ⟨hname, he⟩ := Table.get?_put_eq_some.mp he
      · exact ⟨i, lb, rfl, List.getElem?_set_self hlt, hown⟩
      · obtain ⟨j, x, hj, hget, hx⟩ := h.slot name e he hk
        -- No other method has the slot.
        have hij : i ≠ j := by
          rintro rfl
          exact hname ((hl.fills .method).apart _ _ _ _ he hold hk hkind (hj.trans hi.symm))
        exact ⟨j, x, hj, by rwa [List.getElem?_set_ne hij], hothers name x hname hx⟩

end Dispatches

/-- The offsets of sound members are bounded by their number. -/
theorem Sound.within {l : Layout} (h : l.Sound) {b : Nat} (hb : ∀ kind, (l.types kind).length ≤ b)
    {name : Text} {e : Entry} (he : l.members.get? name = some e) : e.Within b := by
  obtain ⟨i, hi, htype⟩ := (h.fills e.kind).placed name e he rfl
  have hlt := (List.getElem?_eq_some_iff.mp htype).1
  have hle := hb e.kind
  rw [Entry.Within, hi]
  rcases h.kind he with hk | hk
  · rw [hk] at hlt hle ⊢
    simp only [Frame.place, Frame.fieldOffset]
    omega
  · rw [hk] at hlt hle ⊢
    simp only [Frame.place, Frame.methodOffset]
    omega

end Layout

variable {l : Layout} {R : Resolver} {g : Emitter} {b : Nat}

/-- Methods without errors fill the table of their class. -/
theorem emitMethods_filled {cls : Text} {level : Nat} {R' : Resolver} {table : List Slot}
    {ms : List Method} (hl : l.Sound) (hclean : (R.methods cls level l ms).2.2.errors = [])
    (htable : l.Dispatches table fun _ _ => True) :
    Code.Filled (R.methods cls level l ms).2.1.methods.length
      (emitMethods g table (resolveMethods R' (R.methods cls level l ms).1 ms).1).1 := by
  induction ms generalizing R R' g l table with
  | nil =>
    rw [resolveMethods, emitMethods]
    exact htable.filled
  | cons m ms ih =>
    obtain ⟨r, offset⟩ := m
    have herror := Resolver.error_eq_none_of_placed
      ((Resolver.methods_still _ cls level _ ms).clean hclean)
    rw [Resolver.methods, resolveMethods, emitMethods]
    exact ih (hl.adds (l.addMethod_adds cls level r offset)).1 hclean
      (htable.addMethod hl herror trivial fun _ _ _ _ => trivial)

/-! ### Bounded offsets -/

/-- A class whose offset and whose members' offsets are bounded. -/
def ClassInfo.Within (b : Nat) (info : ClassInfo) : Prop :=
  info.entry.Within b ∧ ∀ name e, info.members.get? name = some e → e.Within b

theorem Entry.Within.mono {b' : Nat} {e : Entry} (h : e.Within b) (hb : b ≤ b') : e.Within b' := by
  obtain ⟨hlo, hhi⟩ := h
  exact ⟨by omega, by omega⟩

theorem Scopes.Within.mono {b' : Nat} {s : Scopes} (h : s.Within b) (hb : b ≤ b') : s.Within b' :=
  ⟨fun name i e he => (h.entry name i e he).mono hb,
    fun cls info name e hinfo he => (h.member cls info name e hinfo he).mono hb⟩

theorem ClassDecl.length_members_lt (c : ClassDecl) (level : Nat) :
    (c.members level).length < c.weight := by
  have hsum := length_le_sum_of_one_le (c.methods.map fun m => m.routine.weight) (by
    simp only [mem_map, forall_exists_index, and_imp, forall_apply_eq_imp_iff₂]
    exact fun m _ => m.routine.one_le_weight)
  rw [length_map] at hsum
  rw [members, length_append, length_map, length_map, weight]
  omega

/-! ### Classes without errors -/

/-- The code of a class records its table. -/
theorem ClassDecl.dispatch_code {c : ClassDecl} (hplain : c.Plain) :
    ((c.resolve R).1.code g).2.dispatch =
      g.dispatch.put c.name (emitMethods g (g.inherited c.super) (c.bodies R).1).1 := by
  rw [resolve_eq, code]
  dsimp only
  rw [emitMethods_dispatch _ (c.bodies_plain hplain R)]

theorem ClassInfo.LaidBy.types_eq {info : ClassInfo} {l' : Layout} (h : info.LaidBy l)
    (h' : info.LaidBy l') (kind : EntryKind) : l.types kind = l'.types kind := by
  obtain ⟨origin, hty⟩ := h.ty
  obtain ⟨origin', hty'⟩ := h'.ty
  rw [hty, Layout.ty, Layout.ty, Ty.cls.injEq] at hty'
  cases kind with
  | field => exact hty'.2.1
  | method => exact hty'.2.2
  | _ => rfl

/-- What the context knows of a class tells its layout, up to what the class declares itself. -/
theorem Layout.Dispatches.laidBy {info : ClassInfo} {l' : Layout} {table : List Slot}
    {D : Text → Label → Prop} (hd : l.Dispatches table D) (h : info.LaidBy l)
    (h' : info.LaidBy l') : l'.Dispatches table D := by
  have hmethods : l.methods = l'.methods := h.types_eq h' .method
  exact ⟨hmethods ▸ hd.filled, by rw [← h'.members, h.members]; exact hd.slot⟩

/-- What holds of the classes that were resolved and generated so far, given a bound on the number
of names declared in them. -/
structure Emitter.Tabled (g : Emitter) (R : Resolver) (global : Table Entry) (b : Nat) : Prop where
  tables : R.scopes.tables = [global]
  described : R.scopes.context.Described global
  layout : ∀ name info, R.scopes.context.classes.get? name = some info →
    ∃ l table, info.LaidBy l ∧ l.Sound ∧ (∀ kind, (l.types kind).length ≤ b) ∧
      info.entry.Within b ∧ g.dispatch.get? name = some table ∧
      Code.Filled l.methods.length table
  unknown : ∀ name, R.scopes.context.classes.get? name = none → g.dispatch.get? name = none
  below : R.nextLocal ≤ -2
  room : -2 - R.nextLocal ≤ (b : Int)

namespace Emitter.Tabled

variable {g : Emitter} {R : Resolver} {global : Table Entry} {b : Nat} {c : ClassDecl}

theorem empty : Tabled {} { scopes := ⟨[[]], {}⟩ } [] 0 where
  tables := rfl
  described := .empty
  layout _ _ h := by cases h
  unknown _ _ := rfl
  below := Int.le_refl _
  room := by decide

variable (h : g.Tabled R global b)

include h

/-- The offsets of the classes are bounded. -/
theorem within {name : Text} {info : ClassInfo}
    (hinfo : R.scopes.context.classes.get? name = some info) : info.Within b := by
  obtain ⟨l, -, hlaid, hsound, hlength, hentry, -⟩ := h.layout name info hinfo
  refine ⟨hentry, fun member e he => ?_⟩
  rw [hlaid.members] at he
  exact hsound.within hlength he

theorem within_global {name : Text} {e : Entry} (he : global.get? name = some e) : e.Within b := by
  rw [h.described.entry] at he
  obtain ⟨info, hinfo, rfl⟩ := Option.map_eq_some_iff.mp he
  exact (h.within hinfo).1

/-- A class starts from a filled table. -/
theorem inherited (c : ClassDecl) :
    (∀ kind, ((R.inherit c).2.1.types kind).length ≤ b) ∧
      Code.Filled (R.inherit c).2.1.methods.length (g.inherited c.super) := by
  obtain ⟨hnone, -, hempty⟩ | ⟨super, info, l, hsuper, hinfo, hlaid, hsound, -, heq⟩ :=
    h.described.inherit_cases h.tables c
  · rw [hempty]
    refine ⟨fun kind => by cases kind <;> exact Nat.zero_le _, ?_⟩
    cases hsuper : c.super with
    | none => exact .nil
    | some super =>
      rw [hsuper, Option.bind_some] at hnone
      rw [Emitter.inherited, h.unknown super hnone]
      exact .nil
  · obtain ⟨l', table, hlaid', -, hlength, -, hget, hfilled⟩ := h.layout super info hinfo
    have hmethods : l'.methods = l.methods := hlaid'.types_eq hlaid .method
    rw [heq, hsuper, Emitter.inherited, hget]
    refine ⟨fun kind => ?_, ?_⟩
    · rw [← hlaid'.types_eq hlaid kind]
      exact hlength kind
    · rw [hmethods] at hfilled
      exact hfilled

/-- The fields of a class are laid out soundly. -/
theorem sound_fields (c : ClassDecl) : (R.laidFields c).2.1.Sound :=
  (h.described.sound_inherit h.tables c).addsAll (Resolver.fields_addsAll _ _ _ _ _)

theorem get?_dispatch (hc : c.Clean R global) : g.dispatch.get? c.name = none :=
  h.unknown c.name (h.described.get?_eq_none hc.fresh)

/-- The table of a class is filled. -/
theorem filled (hc : c.Clean R global) :
    Code.Filled (R.layoutOf c).methods.length
      (emitMethods g (g.inherited c.super) (c.bodies R).1).1 :=
  emitMethods_filled (h.sound_fields c) hc.methods
    ((Layout.Dispatches.of_filled (h.described.sound_inherit h.tables c)
      (h.inherited c).2).fields _ _)

/-- One more class without errors. -/
theorem resolve (hplain : c.Plain) (hc : c.Clean R global) :
    ((c.resolve R).1.code g).2.Tabled (c.resolve R).2 (global.put c.name (R.infoOf c).entry)
      (b + c.weight) := by
  have hscopes := hc.scopes hplain h.tables
  have hnext := c.resolve_nextLocal R
  have hweight := c.length_members_lt (R.level + 1)
  have hbelow := h.below
  have hroom := h.room
  refine ⟨by rw [hscopes], h.described.resolve_clean h.tables hplain hc, ?_, ?_, by omega, by omega⟩
  · intro name info hinfo
    rw [hscopes] at hinfo
    rw [dispatch_code hplain]
    obtain ⟨rfl, rfl⟩ | ⟨hname, hinfo⟩ := Table.get?_put_eq_some.mp hinfo
    · have hadds := R.layoutOf_addsAll c
      refine ⟨R.layoutOf c, _, ⟨rfl, _, rfl⟩,
        (h.described.sound_inherit h.tables c).addsAll hadds, fun kind => ?_, ⟨?_, ?_⟩,
        Table.get?_put_self _ _ _, h.filled hc⟩
      · have hadded := hadds.length_le kind
        have hinherited := (h.inherited c).1 kind
        omega
      · show -1 - ((b + c.weight : Nat) : Int) ≤ R.nextLocal
        omega
      · show R.nextLocal ≤ ((b + c.weight : Nat) : Int)
        omega
    · obtain ⟨l, t, hlaid, hs, hl, hentry, hget, hf⟩ := h.layout name info hinfo
      exact ⟨l, t, hlaid, hs, fun kind => (hl kind).trans (Nat.le_add_right _ _),
        hentry.mono (Nat.le_add_right _ _), (Table.get?_put_of_ne _ _ hname).trans hget, hf⟩
  · intro name hnone
    rw [hscopes, Context.classes_declare] at hnone
    have hname : name ≠ c.name := by
      rintro rfl
      rw [Table.get?_put_self] at hnone
      cases hnone
    rw [Table.get?_put_of_ne _ _ hname] at hnone
    rw [dispatch_code hplain, Table.get?_put_of_ne _ _ hname]
    exact h.unknown name hnone

/-- All classes without errors. -/
protected theorem resolveClasses {cs : List ClassDecl} (hplain : ∀ c ∈ cs, c.Plain)
    (hclean : (resolveClasses R cs).2.errors = []) :
    ∃ global' rows, (∀ row ∈ rows, ∀ s ∈ row.2, s.isSome) ∧
      (codeClasses g (resolveClasses R cs).1).1 = rows.flatMap (fun row => Code.writeTable row.2) ∧
      (codeClasses g (resolveClasses R cs).1).2.dispatch = g.dispatch ++ rows ∧
      rows.names = cs.map name ∧
      (codeClasses g (resolveClasses R cs).1).2.Tabled (resolveClasses R cs).2 global'
        (b + (cs.map weight).sum) := by
  induction cs generalizing g R global b with
  | nil => exact ⟨global, [], nofun, rfl, (append_nil _).symm, rfl, h⟩
  | cons c cs ih =>
    obtain ⟨hp, hclean', hcs, hrest⟩ := resolveClasses_cons_clean hplain hclean
    have hc := clean_of_resolve hp h.tables hclean'
    obtain ⟨global', rows, hrows, hcodes, hdispatches, hnames, h'⟩ :=
      ih (h.resolve hp hc) hcs hrest
    refine ⟨global', (c.name, (emitMethods g (g.inherited c.super) (c.bodies R).1).1) :: rows,
      ?_, ?_, ?_, ?_, ?_⟩
    · exact forall_mem_cons.mpr ⟨(h.filled hc).slots, hrows⟩
    · have hcode : ((c.resolve R).1.code g).1 =
          Code.writeTable (emitMethods g (g.inherited c.super) (c.bodies R).1).1 := by
        rw [resolve_eq, code]
      rw [resolveClasses, codeClasses, flatMap_cons, ← hcode, ← hcodes]
    · rw [resolveClasses, codeClasses, append_cons,
        ← Table.put_of_none (h.get?_dispatch hc), ← dispatch_code hp]
      exact hdispatches
    · rw [Table.names_cons, hnames, map_cons]
    · rw [map_cons, sum_cons, ← Nat.add_assoc]
      exact h'

/-! ### Numbers in the code of classes -/

/-- The offsets in the bodies of methods are bounded. -/
theorem within_bodies (hplain : c.Plain) (hc : c.Clean R global) :
    (c.atBodies R).scopes.Within (b + c.weight) := by
  have h' := h.resolve hplain hc
  have hscopes := hc.scopes hplain h.tables
  refine ⟨fun name i e hl => ?_, fun cls info name e hget he => ?_⟩
  · rcases hc.locate_atBodies h.tables hl with ⟨-, hget⟩ | ⟨-, hget⟩
    · have hown : (c.resolve R).2.scopes.context.classes.get? c.name = some (R.infoOf c) := by
        rw [hscopes]
        exact Table.get?_put_self _ _ _
      exact (h'.within hown).2 name e hget
    · exact h'.within_global hget
  · have hknown : (c.resolve R).2.scopes.context.classes.get? cls = some info := by
      rw [hscopes, ← hc.laid_scopes h.tables]
      exact hget
    exact (h'.within hknown).2 name e he

end Emitter.Tabled

/-- The routines of the methods of a class can be written, since the offsets in them are
bounded. -/
theorem emitMethods_writes (hb : b < Word.limit) {ms : List Method}
    (hplain : ∀ m ∈ ms, m.routine.Plain) (hweight : ∀ m ∈ ms, m.routine.weight ≤ b)
    (hs : R.scopes.Within b) {offsets : List Int}
    (hclean : (resolveMethods R offsets ms).2.errors = []) (g : Emitter) (table : List Slot)
    (hg : g.routines.all Line.isWritable) :
    (emitMethods g table (resolveMethods R offsets ms).1).2.routines.all Line.isWritable := by
  induction ms generalizing R offsets g table with
  | nil =>
    rw [resolveMethods, emitMethods]
    exact hg
  | cons m ms ih =>
    obtain ⟨r, offset⟩ := m
    obtain ⟨hr, hms⟩ := forall_mem_cons.mp hplain
    obtain ⟨hrw, hmsw⟩ := forall_mem_cons.mp hweight
    have hstill := Routine.resolveInside_still r hr R
    rw [resolveMethods] at hclean ⊢
    rw [emitMethods]
    have hfirst := Routine.emit_writes hb r hr g.takeRoutine.1 g.takeRoutine.2 hs hrw
      ((resolveMethods_still ms hms _ _).clean hclean) hg
    exact ih hms hmsw (hstill.scopes ▸ hs) hclean _ _ hfirst

/-- The routines of classes can be written, if so many names can be counted. -/
theorem Emitter.Tabled.writes {global : Table Entry} {n : Nat} (hn : n < Word.limit)
    {cs : List ClassDecl} (h : g.Tabled R global b) (hsum : b + (cs.map weight).sum ≤ n)
    (hplain : ∀ c ∈ cs, c.Plain) (hclean : (resolveClasses R cs).2.errors = [])
    (hg : g.routines.all Line.isWritable) :
    (codeClasses g (resolveClasses R cs).1).2.routines.all Line.isWritable := by
  induction cs generalizing g R global b with
  | nil => exact hg
  | cons c cs ih =>
    obtain ⟨hp, hclean', hcs, hrest⟩ := resolveClasses_cons_clean hplain hclean
    have hc := clean_of_resolve hp h.tables hclean'
    rw [map_cons, sum_cons] at hsum
    have hmethods : ((c.resolve R).1.code g).2.routines.all Line.isWritable := by
      rw [resolve_eq, code]
      refine emitMethods_writes hn hp.2 (fun m hm => ?_)
        ((h.within_bodies hp hc).mono (by omega)) hc.bodies g _ hg
      have := weight_method_le hm
      omega
    rw [resolveClasses, codeClasses]
    exact ih (h.resolve hp hc) (by omega) hcs hrest hmethods

/-! ### Tables in the code of classes -/

theorem Code.writeTable_writable (table : List Slot) : (writeTable table).all Line.isWritable := by
  rw [writeTable, all_cons, all_flatMap]
  simp only [Bool.and_eq_true, all_eq_true]
  exact ⟨rfl, fun s _ => all_eq_true.mp rfl⟩

theorem codeClasses_writable (cs : List ClassDecl) (g : Emitter) :
    (codeClasses g cs).1.all Line.isWritable := by
  induction cs generalizing g with
  | nil => rfl
  | cons c cs ih =>
    obtain ⟨_, _, _, _, _, _, _⟩ := c
    rw [codeClasses, all_append, ih, code, Code.writeTable_writable]
    rfl

end Foolscap
