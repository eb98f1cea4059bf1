import Foolscap.Proofs.Class.Acyclic
import Foolscap.Proofs.Class.Tables

/-!
# Overrides

A class is checked against its direct superclass only, and only where it redeclares a member.  That
is enough: a member that is not redeclared keeps its type, so every class refines the one above it,
position by position.
-/

namespace Foolscap

open List

/-! ### Refinement, position by position -/

namespace Hierarchy

variable {h : Hierarchy} {ts us vs : List Ty}

/-- A list of types has, at every position of another one, a type below the one there. -/
def Refines (h : Hierarchy) (own super : List Ty) : Prop :=
  ∀ (i : Nat) want, super[i]? = some want → ∃ got, own[i]? = some got ∧ h.isSubtype got want

namespace Refines

theorem refl (hcomplete : ∀ t ∈ ts, t.isComplete) : h.Refines ts ts :=
  fun _ t ht => ⟨t, ht, isSubtype_refl (hcomplete t (mem_of_getElem? ht))⟩

theorem trans (hts : h.Refines ts us) (hus : h.Refines us vs) : h.Refines ts vs := by
  intro i v hv
  obtain ⟨u, hu, huv⟩ := hus i v hv
  obtain ⟨t, ht, htu⟩ := hts i u hu
  exact ⟨t, ht, isSubtype_trans htu huv⟩

theorem length_le (hts : h.Refines ts us) : us.length ≤ ts.length := by
  by_contra hlt
  obtain ⟨t, ht, -⟩ := hts ts.length us[ts.length] (List.getElem?_eq_getElem (by omega))
  exact absurd (List.getElem?_eq_some_iff.mp ht).1 (Nat.lt_irrefl _)

end Refines

/-- Function types of which one is below the other take the same number of parameters. -/
theorem length_params_eq {ps qs : List Ty} {r s : Ty}
    (hsub : h.isSubtype (.arrow ps r) (.arrow qs s)) : ps.length = qs.length :=
  (isSubtype_arrow.mp hsub).2.length_eq.symm

end Hierarchy

namespace ClassInfo

/-- The types of the members of a kind, by position. -/
def types (info : ClassInfo) (kind : EntryKind) : List Ty :=
  match info.entry.ty, kind with
  | .cls _ fields _, .field => fields
  | .cls _ _ methods, .method => methods
  | _, _ => []

theorem LaidBy.types_layout {info : ClassInfo} {l : Layout} (h : info.LaidBy l)
    (kind : EntryKind) : info.types kind = l.types kind := by
  obtain ⟨origin, hty⟩ := h.ty
  unfold ClassInfo.types
  rw [hty]
  cases kind <;> rfl

/-- The fields and the methods of a class refine those of another one. -/
def Conforms (h : Hierarchy) (info super : ClassInfo) : Prop :=
  ∀ kind, h.Refines (info.types kind) (super.types kind)

end ClassInfo

/-! ### One class -/

/-- A class that was checked refines what it inherits. -/
theorem ClassDecl.refines_inherited {h : Hierarchy} {R : Resolver} {global : Table Entry}
    {c : ClassDecl} (hc : c.Clean R global) {e : Entry} {l : Layout} {origin : Nat}
    (hinherit : R.inherit c = (some e, l, R)) (hty : e.ty = l.ty origin) (hl : l.Sound)
    (hcomplete : ∀ kind, ∀ t ∈ l.types kind, t.isComplete)
    (hquiet : Typing.Quiet ((c.resolve R).1.check h)) (kind : EntryKind) :
    h.Refines ((R.layoutOf c).types kind) (l.types kind) := by
  have haccepts := hc.accepts
  rw [hinherit] at haccepts
  rw [ClassDecl.resolve_eq, ClassDecl.check, Typing.quiet_append, hinherit, Typing.refines,
    hty] at hquiet
  have hrefined := Typing.quiet_append.mp hquiet.2
  intro i want hwant
  have hi := (List.getElem?_eq_some_iff.mp hwant).1
  -- A position at which nothing is declared keeps its type, and the others are checked.
  by_cases hkept : ∀ m ∈ memberEntries (R.level + 1) (R.laidFields c).1 (c.bodies R).1,
      m.2.kind = kind → m.2.offset ≠ Frame.place kind i
  · exact ⟨want, (haccepts.type_kept hl hi hkept).trans hwant,
      Hierarchy.isSubtype_refl (hcomplete kind want (mem_of_getElem? hwant))⟩
  · push Not at hkept
    obtain ⟨m, hm, rfl, hoffset⟩ := hkept
    obtain ⟨got, want', hgot, hwant', hsub⟩ : ∃ got want',
        ((R.layoutOf c).types m.2.kind)[i]? = some got ∧ (l.types m.2.kind)[i]? = some want' ∧
          h.isSubtype got want' := by
      rcases mem_append.mp hm with hm | hm
      · obtain ⟨f, hf, rfl⟩ := mem_map.mp hm
        exact Typing.refinesAt_quiet (Frame.fieldPosition_of_place hoffset) hi
          (Typing.quiet_flatMap hrefined.1 hf)
      · obtain ⟨method, hmethod, rfl⟩ := mem_map.mp hm
        exact Typing.refinesAt_quiet hoffset hi (Typing.quiet_flatMap hrefined.2 hmethod)
    obtain rfl := Option.some.inj (hwant.symm.trans hwant')
    exact ⟨got, hgot, hsub⟩

/-! ### All classes -/

namespace Resolver

/-- What holds of the classes that were resolved and checked so far, over the hierarchy of all
classes: their members have types, and they conform to their direct superclasses. -/
structure Conforming (R : Resolver) (global : Table Entry) (h : Hierarchy) : Prop where
  tables : R.scopes.tables = [global]
  described : R.scopes.context.Described global
  bears : ∀ name info, R.scopes.context.classes.get? name = some info →
    ∀ member e, info.members.get? member = some e → e.kind.Bears e.ty
  levels : ∀ name info, R.scopes.context.classes.get? name = some info →
    info.entry.level = 0 ∧ ∀ member e, info.members.get? member = some e → e.level = 1
  direct : ∀ name info super superInfo, R.scopes.context.classes.get? name = some info →
    R.scopes.context.supers.get? name = some super →
    R.scopes.context.classes.get? super = some superInfo → info.Conforms h superInfo

namespace Conforming

variable {R : Resolver} {global : Table Entry} {h : Hierarchy} {c : ClassDecl}

theorem empty (h : Hierarchy) : Conforming { scopes := ⟨[[]], {}⟩ } [] h where
  tables := rfl
  described := .empty
  bears _ _ hinfo := by cases hinfo
  levels _ _ hinfo := by cases hinfo
  direct _ _ _ _ hinfo := by cases hinfo

variable (hR : R.Conforming global h)

include hR

/-- What holds of the members of all classes and of what a class declares holds of its members. -/
theorem forall_layoutOf {P : Entry → Prop}
    (hknown : ∀ name info, R.scopes.context.classes.get? name = some info →
      ∀ member e, info.members.get? member = some e → P e)
    (hown : ∀ m ∈ c.members (R.level + 1), ∀ offset, P { m.2 with offset }) :
    ∀ name e, (R.layoutOf c).members.get? name = some e → P e := by
  refine (R.layoutOf_addsAll c).forall_members ?_ hown
  obtain ⟨-, -, hempty⟩ | ⟨super, info, l, -, hinfo, hlaid, -, -, heq⟩ :=
    hR.described.inherit_cases hR.tables c
  · rw [hempty]
    nofun
  · rw [heq, ← hlaid.members]
    exact hknown super info hinfo

theorem levels_infoOf (c : ClassDecl) :
    (R.infoOf c).entry.level = 0 ∧
      ∀ member e, (R.infoOf c).members.get? member = some e → e.level = 1 := by
  have hlevel : R.level = 0 := by
    rw [Resolver.level, Scopes.level, hR.tables]
    rfl
  refine ⟨congrArg Int.ofNat hlevel, hR.forall_layoutOf (fun name info hinfo =>
    (hR.levels name info hinfo).2) fun m hm _ => ?_⟩
  rw [hlevel] at hm
  rcases mem_append.mp hm with hm | hm
  · obtain ⟨f, -, rfl⟩ := mem_map.mp hm
    rfl
  · obtain ⟨method, -, rfl⟩ := mem_map.mp hm
    rfl

/-- The types of a class are those of its members. -/
theorem bears_types {name : Text} {info : ClassInfo}
    (hinfo : R.scopes.context.classes.get? name = some info) (kind : EntryKind) :
    ∀ t ∈ info.types kind, kind.Bears t := by
  obtain ⟨l, hlaid, hsound, -⟩ := hR.described.laid name info hinfo
  rw [hlaid.types_layout]
  exact hsound.forall_types (hlaid.members ▸ hR.bears name info hinfo) kind

/-- The names in the global scope are those of classes. -/
theorem entry {name : Text} {e : Entry} (he : global.get? name = some e) :
    e.kind = .cls ∧ e.level = 0 ∧ e.ty.isComplete ∧
      ∃ info, R.scopes.context.classes.get? name = some info ∧ info.entry = e := by
  rw [hR.described.entry] at he
  obtain ⟨info, hinfo, rfl⟩ := Option.map_eq_some_iff.mp he
  obtain ⟨l, hlaid, hsound, -⟩ := hR.described.laid name info hinfo
  obtain ⟨origin, hty⟩ := hlaid.ty
  refine ⟨hR.described.kind name info hinfo, (hR.levels name info hinfo).1, ?_, info, hinfo, rfl⟩
  rw [hty]
  exact hsound.isComplete_ty
    (fun member e he => (hR.bears name info hinfo member e (hlaid.members ▸ he)).1) origin

/-- One more class conforms to its superclass. -/
theorem conforms_infoOf (hc : c.Clean R global) (hquiet : Typing.Quiet ((c.resolve R).1.check h))
    {super : Text} {superInfo : ClassInfo} (hsuper : c.super = some super)
    (hinfo : R.scopes.context.classes.get? super = some superInfo) :
    (R.infoOf c).Conforms h superInfo := by
  intro kind
  obtain ⟨info, l, hget, hlaid, hsound, heq⟩ :=
    hR.described.superOf_known hR.tables (hc.superOf_eq.trans hsuper)
  obtain rfl := Option.some.inj (hget.symm.trans hinfo)
  obtain ⟨origin, hty⟩ := hlaid.ty
  have hown : (R.infoOf c).LaidBy (R.layoutOf c) := ⟨rfl, _, rfl⟩
  rw [hown.types_layout, hlaid.types_layout]
  refine ClassDecl.refines_inherited hc heq hty hsound (fun kind t ht => ?_) hquiet kind
  exact (hR.bears_types hget kind t (hlaid.types_layout kind ▸ ht)).1

/-- One more class. -/
theorem resolve (hplain : c.Plain) (hc : c.Clean R global)
    (hquiet : Typing.Quiet ((c.resolve R).1.check h)) :
    (c.resolve R).2.Conforming (global.put c.name (R.infoOf c).entry) h := by
  have hscopes := hc.scopes hplain hR.tables
  have hnew := hR.described.get?_eq_none hc.fresh
  refine ⟨by rw [hscopes], hR.described.resolve_clean hR.tables hplain hc, ?_, ?_, ?_⟩
  · rw [hscopes]
    exact Table.forall_put hR.bears (hR.forall_layoutOf hR.bears fun m hm _ => hplain.bears hm)
  · rw [hscopes]
    exact Table.forall_put hR.levels (hR.levels_infoOf c)
  · intro name info super superInfo hinfo hsuper hsuperInfo
    rw [hscopes] at hinfo hsuper hsuperInfo
    -- A superclass was known before, so its name is not that of the class.
    have hbefore : ∀ {info}, R.scopes.context.classes.get? super = some info →
        R.scopes.context.classes.get? super = some superInfo := by
      intro info hget
      rw [← hsuperInfo, Context.classes_declare,
        Table.get?_put_of_ne _ _ (hR.described.ne_of_known hc.fresh hget)]
    obtain ⟨rfl, rfl⟩ | ⟨hname, hinfo⟩ := Table.get?_put_eq_some.mp hinfo
    · rw [Context.get?_supers_declare_self _ _ _ (hR.described.undeclared _ hnew)] at hsuper
      obtain ⟨_, -, hget, -⟩ :=
        hR.described.superOf_known hR.tables (hc.superOf_eq.trans hsuper)
      exact hR.conforms_infoOf hc hquiet hsuper (hbefore hget)
    · rw [Context.get?_supers_declare_of_ne _ _ _ hname] at hsuper
      obtain ⟨_, hget⟩ := hR.described.super_known hsuper
      exact hR.direct name info super superInfo hinfo hsuper (hbefore hget)

/-- All classes. -/
protected theorem resolveClasses {cs : List ClassDecl} (hplain : ∀ c ∈ cs, c.Plain)
    (hclean : (resolveClasses R cs).2.errors = [])
    (hquiet : Typing.Quiet ((resolveClasses R cs).1.flatMap (ClassDecl.check h))) :
    ∃ global', (resolveClasses R cs).2.Conforming global' h := by
  induction cs generalizing R global with
  | nil => exact ⟨global, hR⟩
  | cons c cs ih =>
    obtain ⟨hp, hclean', hcs, hrest⟩ := resolveClasses_cons_clean hplain hclean
    have hc := ClassDecl.clean_of_resolve hp hR.tables hclean'
    rw [resolveClasses, flatMap_cons, Typing.quiet_append] at hquiet
    exact ih (hR.resolve hp hc hquiet.1) hcs hrest hquiet.2

/-- A class conforms to itself and to all classes above it. -/
theorem conforms {name above : Text} {info : ClassInfo}
    (hinfo : R.scopes.context.classes.get? name = some info)
    (habove : Relation.ReflTransGen R.scopes.context.supers.Extends name above) :
    ∃ aboveInfo, R.scopes.context.classes.get? above = some aboveInfo ∧
      info.Conforms h aboveInfo := by
  induction habove with
  | refl =>
    exact ⟨info, hinfo, fun kind => .refl fun t ht => (hR.bears_types hinfo kind t ht).1⟩
  | tail _ hextends ih =>
    obtain ⟨midInfo, hmid, hconforms⟩ := ih
    obtain ⟨topInfo, htop⟩ := hR.described.super_known hextends
    exact ⟨topInfo, htop, fun kind =>
      (hconforms kind).trans (hR.direct _ _ _ _ hmid hextends htop kind)⟩

end Conforming

end Resolver

end Foolscap
