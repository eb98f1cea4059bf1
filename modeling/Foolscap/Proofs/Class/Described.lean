import Foolscap.Proofs.Class.Declared
import Foolscap.Proofs.Tree.Parsed
import Mathlib.Data.List.Nodup

/-!
# Described classes

What the context knows of the classes of a program after the walk that resolves names, also if the
walk found errors: the members of every class fill the places of their kind, and a class that
inherits from another one extends its layout.
-/

namespace Foolscap

open List Table

/-! ### The layout of a class -/

namespace ClassInfo

/-- The members of a kind with their offsets, in the order in which they came. -/
def offsets (info : ClassInfo) (kind : EntryKind) : List Int :=
  (info.members.filter fun row => row.2.kind = kind).map fun row => row.2.offset

/-- The name of the member of a kind at an offset. -/
def nameAt? (info : ClassInfo) (kind : EntryKind) (offset : Int) : Option Text :=
  (info.members.find? fun row => row.2.kind = kind ∧ row.2.offset = offset).map Prod.fst

/-- The names of the fields of a class with some number of fields, by position. -/
def fieldNames (info : ClassInfo) (count : Nat) : List (Option Text) :=
  (List.range count).map fun i : Nat => info.nameAt? .field (-(i : Int) - 1)

/-- The names of the methods of a class with some number of methods, by slot. -/
def methodNames (info : ClassInfo) (count : Nat) : List (Option Text) :=
  (List.range count).map fun j : Nat => info.nameAt? .method (j : Int)

/-- The members of a class with given types of fields and methods: their names are distinct, their
offsets are those that the numbers of types give, each once, and each has the type of its
position. -/
structure LaidOut (info : ClassInfo) (fields methods : List Ty) : Prop where
  nodup : info.members.names.Nodup
  mem_names : ∀ name, name ∈ info.members.names ↔ ∃ e, info.members.get? name = some e
  kinds : ∀ name e, info.members.get? name = some e → e.kind = .field ∨ e.kind = .method
  fieldOffsets : (info.offsets .field).Perm
    ((List.range fields.length).map fun i : Nat => -(i : Int) - 1)
  fieldTypes : ∀ name e (i : Nat), info.members.get? name = some e → e.kind = .field →
    e.offset = -(i : Int) - 1 → fields[i]? = some e.ty
  methodOffsets : (info.offsets .method).Perm
    ((List.range methods.length).map fun j : Nat => (j : Int))
  methodTypes : ∀ name e (j : Nat), info.members.get? name = some e → e.kind = .method →
    e.offset = (j : Int) → methods[j]? = some e.ty

/-- A class with given types of fields and methods has the members of another one, of the same
kinds and at the same places.  So the fields and the methods of the other class come first. -/
structure Extends (info : ClassInfo) (fields methods : List Ty) (super : ClassInfo)
    (superFields superMethods : List Ty) : Prop where
  member : ∀ name e, super.members.get? name = some e →
    ∃ e', info.members.get? name = some e' ∧ e'.offset = e.offset ∧ e'.kind = e.kind
  fields : super.fieldNames superFields.length <+: info.fieldNames fields.length
  methods : super.methodNames superMethods.length <+: info.methodNames methods.length

/-- The members of a class are those of a layout, and its type is that of the layout. -/
structure LaidBy (info : ClassInfo) (l : Layout) : Prop where
  members : info.members = l.members
  ty : ∃ origin, info.entry.ty = l.ty origin

end ClassInfo

theorem Frame.place_field (i : Nat) : Frame.place .field i = -(i : Int) - 1 := by
  simp only [Frame.place, Frame.fieldOffset]
  omega

/-- The names of a table are those under which something is found. -/
theorem Table.mem_names_iff {α : Type} (t : Table α) (name : Text) :
    name ∈ t.names ↔ ∃ a, t.get? name = some a := by
  induction t with
  | nil => simp
  | cons row t ih =>
    obtain ⟨n, b⟩ := row
    rw [names_cons, mem_cons, get?_cons, ih]
    by_cases h : n = name
    · simp [h]
    · simp [h, Ne.symm h]

/-- In a table with distinct names a row is what is found under its name. -/
theorem Table.mem_iff_get? {α : Type} {t : Table α} (h : t.names.Nodup) {name : Text} {a : α} :
    (name, a) ∈ t ↔ t.get? name = some a := by
  induction t with
  | nil => simp
  | cons row t ih =>
    obtain ⟨n, b⟩ := row
    rw [names_cons, nodup_cons] at h
    rw [mem_cons, get?_cons, ih h.2]
    by_cases hn : n = name
    · subst hn
      have hnone : get? t n ≠ some a :=
        fun hget => h.1 ((mem_names_iff t n).mpr ⟨a, hget⟩)
      simp [hnone, eq_comm (a := a)]
    · simp [hn, Ne.symm hn]

namespace Layout.Sound

variable {l : Layout} {info : ClassInfo}

/-- The offsets of the members of a kind are the places of that kind, each once. -/
theorem offsets_perm (h : l.Sound) (hinfo : info.members = l.members) (kind : EntryKind) :
    (info.offsets kind).Perm ((List.range (l.types kind).length).map (Frame.place kind)) := by
  have hnodup : l.members.Nodup := List.Nodup.of_map Prod.fst h.nodup
  refine (perm_ext_iff_of_nodup ?_ ?_).mpr fun offset => ?_
  · rw [ClassInfo.offsets, hinfo]
    refine List.Nodup.map_on ?_ (hnodup.filter _)
    rintro ⟨name, e⟩ he ⟨name', e'⟩ he' (hoff : e.offset = e'.offset)
    obtain ⟨he, hk⟩ := mem_filter.mp he
    obtain ⟨he', hk'⟩ := mem_filter.mp he'
    rw [mem_iff_get? h.nodup] at he he'
    obtain rfl := (h.fills kind).apart _ _ _ _ he he' (by simpa using hk) (by simpa using hk') hoff
    rw [Option.some.inj (he.symm.trans he')]
  · exact List.Nodup.map (Frame.place_injective kind) nodup_range
  · rw [ClassInfo.offsets, hinfo]
    constructor
    · intro hoff
      obtain ⟨⟨name, e⟩, he, rfl⟩ := mem_map.mp hoff
      obtain ⟨he, hk⟩ := mem_filter.mp he
      obtain ⟨i, hi, ht⟩ := (h.fills kind).placed name e ((mem_iff_get? h.nodup).mp he)
        (by simpa using hk)
      exact mem_map.mpr
        ⟨i, mem_range.mpr (List.getElem?_eq_some_iff.mp ht).1, hi.symm⟩
    · intro hoff
      obtain ⟨i, hi, rfl⟩ := mem_map.mp hoff
      obtain ⟨name, e, he, hk, hoff⟩ := (h.fills kind).filled i (mem_range.mp hi)
      refine mem_map.mpr ⟨(name, e), mem_filter.mpr ⟨?_, by simpa using hk⟩, hoff⟩
      exact (mem_iff_get? h.nodup).mpr he

/-- The member that lies at a place is the one that is found there. -/
theorem nameAt?_of_get? (h : l.Sound) (hinfo : info.members = l.members) {kind : EntryKind}
    {name : Text} {e : Entry} {offset : Int} (he : l.members.get? name = some e)
    (hk : e.kind = kind) (hoff : e.offset = offset) : info.nameAt? kind offset = some name := by
  rw [ClassInfo.nameAt?, hinfo]
  have hmem : (name, e) ∈ l.members := (mem_iff_get? h.nodup).mpr he
  cases hfind : l.members.find? fun row => row.2.kind = kind ∧ row.2.offset = offset with
  | none =>
    have := List.find?_eq_none.mp hfind _ hmem
    simp [hk, hoff] at this
  | some row =>
    obtain ⟨name', e'⟩ := row
    have hrow := List.find?_some hfind
    simp only [decide_eq_true_eq] at hrow
    have he' := (mem_iff_get? h.nodup).mp (mem_of_find?_eq_some hfind)
    rw [Option.map_some, (h.fills kind).apart _ _ _ _ he he' hk hrow.1 (hoff.trans hrow.2.symm)]

theorem laidOut (h : l.Sound) (hinfo : info.members = l.members) :
    info.LaidOut l.fields l.methods := by
  constructor
  · exact hinfo ▸ h.nodup
  · exact info.members.mem_names_iff
  · exact fun name e he => h.kind (hinfo ▸ he)
  · simp only [← Frame.place_field]
    exact h.offsets_perm hinfo .field
  · exact fun name e i he hk hoff =>
      h.type_eq (hinfo ▸ he) hk (hoff.trans (Frame.place_field i).symm)
  · exact h.offsets_perm hinfo .method
  · exact fun name e j he hk hoff => h.type_eq (hinfo ▸ he) hk hoff

end Layout.Sound

namespace Layout.Keeps

variable {l l' : Layout} {info super : ClassInfo}

/-- What lies at a place of a layout lies there in one that extends it. -/
theorem nameAt?_eq (h : l.Keeps l') (hsound : l.Sound) (hsound' : l'.Sound)
    (hsuper : super.members = l.members) (hinfo : info.members = l'.members) {kind : EntryKind}
    {i : Nat} (hi : i < (l.types kind).length) :
    super.nameAt? kind (Frame.place kind i) = info.nameAt? kind (Frame.place kind i) := by
  obtain ⟨name, e, he, hk, hoff⟩ := (hsound.fills kind).filled i hi
  obtain ⟨e', he', hoff', hk'⟩ := h.member name e he
  rw [hsound.nameAt?_of_get? hsuper he hk hoff,
    hsound'.nameAt?_of_get? hinfo he' (hk'.trans hk) (hoff'.trans hoff)]

/-- Names by position come first in a layout that extends another one. -/
theorem names_prefix (h : l.Keeps l') (hsound : l.Sound) (hsound' : l'.Sound)
    (hsuper : super.members = l.members) (hinfo : info.members = l'.members) (kind : EntryKind) :
    ((List.range (l.types kind).length).map fun i => super.nameAt? kind (Frame.place kind i)) <+:
      (List.range (l'.types kind).length).map fun i => info.nameAt? kind (Frame.place kind i) := by
  have heq : ((List.range (l.types kind).length).map
        fun i => super.nameAt? kind (Frame.place kind i)) =
      (List.range (l.types kind).length).map
        fun i => info.nameAt? kind (Frame.place kind i) := by
    apply map_congr_left
    intro i hi
    exact h.nameAt?_eq hsound hsound' hsuper hinfo (mem_range.mp hi)
  rw [heq]
  refine List.IsPrefix.map _ ?_
  obtain ⟨n, hn⟩ := Nat.exists_eq_add_of_le (h.length kind)
  rw [hn, range_add]
  exact prefix_append _ _

/-- A class whose layout goes on from that of another one extends it: it has the same members at
the same places. -/
theorem extends_of (h : l.Keeps l') (hsound : l.Sound) (hsound' : l'.Sound)
    (hsuper : super.members = l.members) (hinfo : info.members = l'.members) :
    info.Extends l'.fields l'.methods super l.fields l.methods := by
  refine ⟨?_, ?_, h.names_prefix hsound hsound' hsuper hinfo .method⟩
  · intro name e he
    rw [hsuper] at he
    rw [hinfo]
    exact h.member name e he
  · unfold ClassInfo.fieldNames
    simp only [← Frame.place_field]
    exact h.names_prefix hsound hsound' hsuper hinfo .field

end Layout.Keeps

/-! ### All classes -/

namespace Context

/-- What is known of the classes of a program while the walk goes over them: the global scope has
their entries, they are laid out, and superclasses are classes that they extend. -/
structure Described (context : Context) (global : Table Entry) : Prop where
  entry : ∀ name, global.get? name = (context.classes.get? name).map ClassInfo.entry
  kind : ∀ name info, context.classes.get? name = some info → info.entry.kind = .cls
  undeclared : ∀ name, context.classes.get? name = none → context.supers.get? name = none
  laid : ∀ name info, context.classes.get? name = some info →
    ∃ l, info.LaidBy l ∧ l.Sound ∧ ∀ super, context.supers.get? name = some super →
      ∃ superInfo superLayout, context.classes.get? super = some superInfo ∧
        superInfo.LaidBy superLayout ∧ superLayout.Sound ∧ superLayout.Keeps l

namespace Described

variable {global : Table Entry} {R : Resolver} {c : ClassDecl}

theorem empty : Described {} [] where
  entry _ := rfl
  kind _ _ h := by cases h
  undeclared _ _ := rfl
  laid _ _ h := by cases h

variable {context : Context} {name : Text}

/-- A described class is known as one. -/
theorem class?_eq (h : context.Described global) (name : Text) :
    Scopes.class? ⟨[global], context⟩ name = (context.classes.get? name).map ClassInfo.entry := by
  rw [Scopes.class?, Scopes.entry?, Scopes.find?, Scopes.find?, h.entry]
  cases hget : context.classes.get? name with
  | none => rfl
  | some info => simp [h.kind name info hget, Context.isClass, has, hget]

/-- A name that the global scope does not have is not that of a class. -/
theorem get?_eq_none (h : context.Described global) (hname : global.get? name = none) :
    context.classes.get? name = none := by
  simpa [h.entry] using hname

theorem ne_of_known (h : context.Described global) {cls : Text} {info : ClassInfo}
    (hname : global.get? name = none) (hinfo : context.classes.get? cls = some info) :
    cls ≠ name := by
  rintro rfl
  rw [h.get?_eq_none hname] at hinfo
  cases hinfo

section

variable (h : R.scopes.context.Described global)

include h

/-- A class inherits nothing, or the layout of the class that its superclass denotes. -/
theorem inherit_cases (ht : R.scopes.tables = [global]) (c : ClassDecl) :
    (c.super.bind R.scopes.context.classes.get? = none ∧ (R.inherit c).1 = none ∧
        (R.inherit c).2.1 = {}) ∨
      ∃ super info l, c.super = some super ∧ R.scopes.context.classes.get? super = some info ∧
        info.LaidBy l ∧ l.Sound ∧ l.declared = [] ∧
        R.inherit c = (some info.entry, l, R) := by
  have hscopes : R.scopes = ⟨[global], R.scopes.context⟩ := by rw [← ht]
  rw [Resolver.inherit]
  cases hsuper : c.super with
  | none => exact .inl ⟨rfl, rfl, rfl⟩
  | some super =>
    dsimp only
    rw [hscopes, h.class?_eq, Option.bind_some]
    cases hget : R.scopes.context.classes.get? super with
    | none => exact .inl ⟨rfl, rfl, rfl⟩
    | some info =>
      obtain ⟨l, ⟨hmembers, origin, hty⟩, hsound, -⟩ := h.laid super info hget
      refine .inr ⟨super, info, { l with declared := [] }, rfl, hget, ⟨hmembers, origin, hty⟩,
        ⟨hsound.nodup, fun kind => by cases kind <;> exact hsound.fills _⟩, rfl, ?_⟩
      simp only [Option.map_some, hty, Layout.ty, hmembers]

/-- A class inherits a sound layout. -/
theorem sound_inherit (ht : R.scopes.tables = [global]) (c : ClassDecl) :
    (R.inherit c).2.1.Sound := by
  obtain ⟨-, -, hempty⟩ | ⟨_, _, l, -, -, -, hsound, -, heq⟩ := h.inherit_cases ht c
  · rw [hempty]
    exact .empty
  · rwa [heq]

/-- The superclass that is recorded for a class is known. -/
theorem superOf_known (ht : R.scopes.tables = [global]) {super : Text}
    (hsuper : R.superOf c = some super) :
    ∃ info l, R.scopes.context.classes.get? super = some info ∧ info.LaidBy l ∧ l.Sound ∧
      R.inherit c = (some info.entry, l, R) := by
  obtain ⟨-, hnone, -⟩ | ⟨super', info, l, hcsuper, hinfo, hlaid, hsound, -, heq⟩ :=
    h.inherit_cases ht c
  · rw [Resolver.superOf, hnone] at hsuper
    cases hsuper
  · rw [Resolver.superOf, heq] at hsuper
    obtain rfl := Option.some.inj (hcsuper.symm.trans hsuper)
    exact ⟨info, l, hinfo, hlaid, hsound, heq⟩

end

/-- Superclasses are known classes. -/
theorem super_known (h : context.Described global) {super : Text}
    (hs : context.supers.get? name = some super) :
    ∃ info, context.classes.get? super = some info := by
  cases hname : context.classes.get? name with
  | none =>
    rw [h.undeclared name hname] at hs
    cases hs
  | some info =>
    obtain ⟨l, -, -, hsuper⟩ := h.laid name info hname
    obtain ⟨superInfo, -, hget, -⟩ := hsuper super hs
    exact ⟨superInfo, hget⟩

variable (h : R.scopes.context.Described global)

include h

variable (ht : R.scopes.tables = [global])

include ht

/-- The layout of a class is sound and extends that of its superclass. -/
theorem laid_layoutOf (hnew : global.get? c.name = none) :
    ∃ l, (R.infoOf c).LaidBy l ∧ l.Sound ∧ ∀ super, R.superOf c = some super →
      ∃ superInfo superLayout,
        (R.scopes.context.declare c.name (R.superOf c) (R.infoOf c)).classes.get? super =
          some superInfo ∧
        superInfo.LaidBy superLayout ∧ superLayout.Sound ∧ superLayout.Keeps l := by
  have hadds := R.layoutOf_addsAll c
  refine ⟨R.layoutOf c, ⟨rfl, _, rfl⟩, (h.sound_inherit ht c).addsAll hadds, fun super hs => ?_⟩
  obtain ⟨info, l, hinfo, hl, hsound, heq⟩ := h.superOf_known ht hs
  rw [heq] at hadds
  exact ⟨info, l, (get?_put_of_ne _ _ (h.ne_of_known hnew hinfo)).trans hinfo, hl, hsound,
    hadds.keeps⟩

/-- One more class is described. -/
theorem resolve (hplain : c.Plain) :
    ∃ global', (c.resolve R).2.scopes.tables = [global'] ∧
      (c.resolve R).2.scopes.context.Described global' := by
  rw [ClassDecl.resolve_scopes hplain ht, Resolver.scopesAfter]
  cases hget : global.get? c.name with
  | some e => exact ⟨global, ht, h⟩
  | none =>
    refine ⟨_, rfl, ?_, ?_, ?_, ?_⟩
    · intro name
      show (global.put _ _).get? name = ((R.scopes.context.classes.put _ _).get? name).map _
      by_cases hname : name = c.name
      · rw [hname, get?_put_self, get?_put_self]
        rfl
      · rw [get?_put_of_ne _ _ hname, get?_put_of_ne _ _ hname]
        exact h.entry name
    · exact forall_put h.kind rfl
    · intro name hnone
      have hname : name ≠ c.name := by
        rintro rfl
        rw [classes_declare, get?_put_self] at hnone
        cases hnone
      rw [classes_declare, get?_put_of_ne _ _ hname] at hnone
      rw [get?_supers_declare_of_ne _ _ _ hname]
      exact h.undeclared name hnone
    · intro name info hinfo
      obtain ⟨rfl, rfl⟩ | ⟨hname, hinfo⟩ := get?_put_eq_some.mp hinfo
      · rw [get?_supers_declare_self _ _ _ (h.undeclared c.name (h.get?_eq_none hget))]
        exact h.laid_layoutOf ht hget
      · rw [get?_supers_declare_of_ne _ _ _ hname]
        obtain ⟨l, hl, hsound, hsuper⟩ := h.laid name info hinfo
        refine ⟨l, hl, hsound, fun super hs => ?_⟩
        obtain ⟨superInfo, superLayout, hinfo, hrest⟩ := hsuper super hs
        exact ⟨superInfo, superLayout,
          (get?_put_of_ne _ _ (h.ne_of_known hget hinfo)).trans hinfo, hrest⟩

/-- One more class without errors is described. -/
theorem resolve_clean (hplain : c.Plain) (hc : c.Clean R global) :
    (c.resolve R).2.scopes.context.Described (global.put c.name (R.infoOf c).entry) := by
  obtain ⟨global', htables, hdescribed⟩ := h.resolve ht hplain
  rw [hc.scopes hplain ht] at htables
  rwa [(List.cons.inj htables).1]

/-- All classes are described. -/
theorem resolveClasses {cs : List ClassDecl} (hplain : ∀ c ∈ cs, c.Plain) :
    ∃ global', (resolveClasses R cs).2.scopes.tables = [global'] ∧
      (resolveClasses R cs).2.scopes.context.Described global' := by
  induction cs generalizing R global with
  | nil => exact ⟨global, ht, h⟩
  | cons c cs ih =>
    obtain ⟨global₁, ht₁, h₁⟩ := h.resolve ht (hplain c mem_cons_self)
    exact ih h₁ ht₁ (forall_mem_cons.mp hplain).2

end Described

end Context

/-! ### Programs -/

namespace Program

/-- The classes of a plain program are described after the walk. -/
theorem described_resolve {p : Program} (hplain : p.Plain) :
    ∃ global, (p.resolve {}).context.Described global := by
  obtain ⟨global, -, h⟩ := Context.Described.resolveClasses
    (R := { scopes := ⟨[[]], {}⟩ }) Context.Described.empty rfl hplain.1
  refine ⟨global, ?_⟩
  have hcontext : (p.resolve {}).context =
      (resolveClasses { scopes := ⟨[[]], {}⟩ } p.classes).2.scopes.context :=
    (resolveDecls_kept p.decls hplain.2 _).context
  rw [hcontext]
  exact h

/-- After the walk over a program that was read from a text, whether or not it found errors, the
members of every class fill the places that the type of the class has, and a class has the members
of its superclass at their places. -/
theorem classes_laidOut {source : Text} {p : Program} (hp : parse source = .ok p) {name : Text}
    {info : ClassInfo} (hinfo : (p.resolve {}).context.classes.get? name = some info) :
    ∃ origin fields methods, info.entry.ty = .cls origin fields methods ∧
      info.LaidOut fields methods ∧
      ∀ super, (p.resolve {}).context.supers.get? name = some super →
        ∃ superInfo superOrigin superFields superMethods,
          (p.resolve {}).context.classes.get? super = some superInfo ∧
          superInfo.entry.ty = .cls superOrigin superFields superMethods ∧
          info.Extends fields methods superInfo superFields superMethods := by
  obtain ⟨global, h⟩ := described_resolve (plain_of_parse hp)
  obtain ⟨l, ⟨hmembers, origin, hty⟩, hsound, hsuper⟩ := h.laid name info hinfo
  refine ⟨origin, l.fields, l.methods, hty, hsound.laidOut hmembers, fun super hs => ?_⟩
  obtain ⟨superInfo, superLayout, hget, ⟨hsuperMembers, superOrigin, hsuperTy⟩, hsuperSound,
    hkeeps⟩ := hsuper super hs
  exact ⟨superInfo, superOrigin, superLayout.fields, superLayout.methods, hget, hsuperTy,
    hkeeps.extends_of hsuperSound hsound hsuperMembers hmembers⟩

/-- A class with two fields and a method of names that are taken, and one that redeclares an
inherited method as a field and then as a method. -/
def clashingSource : Text :=
  "let class A (n:int, k:bool, n:bool) { fun m:int (i:int) n; fun k:int () 1; } " ++
  "class B extends A (k:bool, m:int, j:int) { fun h:int () 2; fun m:int (i:int) i; } in 1;"

/-- Rejected members take no place, and the inherited ones keep theirs. -/
theorem classes_laidOut_clashing :
    ∃ p info superInfo, parse clashingSource = .ok p ∧ (p.resolve {}).errors.length = 4 ∧
      (p.resolve {}).context.classes.get? "B" = some info ∧
      (p.resolve {}).context.classes.get? "A" = some superInfo ∧
      ∃ origin fields methods superFields superMethods,
        info.entry.ty = .cls origin fields methods ∧ info.LaidOut fields methods ∧
        info.Extends fields methods superInfo superFields superMethods := by
  obtain ⟨p, hp, hrun⟩ := exists_ok_of_any (x := parse clashingSource)
    (q := fun p =>
      let r := p.resolve {}
      r.errors.length = 4 && (r.context.classes.get? "B").isSome &&
        r.context.supers.get? "B" = some ("A" : Text)) (by decide +kernel)
  simp only [Bool.and_eq_true, decide_eq_true_eq, Option.isSome_iff_exists] at hrun
  obtain ⟨⟨herrors, info, hinfo⟩, hsuper⟩ := hrun
  obtain ⟨origin, fields, methods, hty, hlaid, hextends⟩ := classes_laidOut hp hinfo
  obtain ⟨superInfo, _, superFields, superMethods, hget, -, hext⟩ := hextends "A" hsuper
  exact ⟨p, info, superInfo, hp, herrors, hinfo, hget, origin, fields, methods, superFields,
    superMethods, hty, hlaid, hext⟩

end Program

end Foolscap
