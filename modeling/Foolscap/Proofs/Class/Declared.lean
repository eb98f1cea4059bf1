import Foolscap.Proofs.Class.Members

/-!
# Declared classes

What the walk does with a class at the top of a program, whether or not it finds errors: the states
that it goes through, and what it leaves in the global scope and in the context.
-/

namespace Foolscap

open List

/-! ### Recording a class -/

/-- Installing a value twice under one name leaves the second one. -/
theorem Table.put_put {α : Type} (t : Table α) (name : Text) (a b : α) :
    (t.put name a).put name b = t.put name b := by
  induction t with
  | nil => simp [Table.put_cons]
  | cons row t ih =>
    obtain ⟨n, c⟩ := row
    by_cases h : n = name
    · simp [Table.put_cons, h]
    · simp [Table.put_cons, h, ih]

namespace Context

/-- A context with one more class. -/
def declare (c : Context) (name : Text) (super : Option Text) (info : ClassInfo) : Context where
  classes := c.classes.put name info
  supers := match super with
    | some s => c.supers.put name s
    | none => c.supers

theorem classes_declare (c : Context) (name : Text) (super : Option Text) (info : ClassInfo) :
    (c.declare name super info).classes = c.classes.put name info := rfl

theorem declare_declare (c : Context) (name : Text) (super : Option Text) (info info' : ClassInfo) :
    (c.declare name super info).declare name super info' = c.declare name super info' := by
  cases super with
  | none | some s => simp [declare, Table.put_put]

theorem get?_supers_declare_of_ne (c : Context) (super : Option Text) (info : ClassInfo)
    {name other : Text} (h : other ≠ name) :
    (c.declare name super info).supers.get? other = c.supers.get? other := by
  cases super with
  | none => rfl
  | some s => exact Table.get?_put_of_ne _ _ h

theorem get?_supers_declare_self (c : Context) (super : Option Text) (info : ClassInfo)
    {name : Text} (h : c.supers.get? name = none) :
    (c.declare name super info).supers.get? name = super := by
  cases super with
  | none => exact h
  | some s => exact Table.get?_put_self _ _ _

end Context

namespace Resolver

variable {R : Resolver} {global : Table Entry}

theorem record_eq (ht : R.scopes.tables = [global]) (name : Text) (super : Option Text)
    (info : ClassInfo) :
    R.record name super info = { R with
      scopes := ⟨[global.put name info.entry], R.scopes.context.declare name super info⟩ } := by
  unfold record
  rw [install_eq ht]
  rfl

theorem errors_record (R : Resolver) (name : Text) (super : Option Text) (info : ClassInfo) :
    (R.record name super info).errors = R.errors := by
  unfold record install
  split
  · rfl
  · rfl

theorem nextLocal_record (R : Resolver) (name : Text) (super : Option Text) (info : ClassInfo) :
    (R.record name super info).nextLocal = R.nextLocal := by
  unfold record install
  split
  · rfl
  · rfl

/-- A class is recorded twice, the second time with all its members. -/
theorem scopes_record_record (ht : R.scopes.tables = [global]) {R₂ : Resolver} {name : Text}
    {super : Option Text} {info : ClassInfo} (hstill : (R.record name super info).Still R₂)
    (info' : ClassInfo) :
    (R₂.record name super info').scopes =
      ⟨[global.put name info'.entry], R.scopes.context.declare name super info'⟩ := by
  have hscopes := hstill.scopes
  rw [record_eq ht] at hscopes
  rw [record_eq (congrArg Scopes.tables hscopes), hscopes]
  simp only [Table.put_put, Context.declare_declare]

/-! ### What a class inherits -/

theorem inherit_still (R : Resolver) (c : ClassDecl) : R.Still (R.inherit c).2.2 := by
  have hreport : ∀ e, R.Still (R.report c.span.start e) :=
    fun e => ⟨prefix_append _ _, rfl, rfl⟩
  rw [inherit]
  cases c.super with
  | none => exact .refl R
  | some super =>
    dsimp only
    split
    · split
      · exact .refl R
      · exact hreport _
    · exact hreport _

/-- What a class inherits, if there are no errors: nothing, or the layout of a class declared
before. -/
theorem inherit_clean {c : ClassDecl} (h : (R.inherit c).2.2.errors = []) :
    c.super = none ∧ R.inherit c = (none, {}, R) ∨
      ∃ super e info origin fields methods, c.super = some super ∧
        R.scopes.class? super = some e ∧ R.scopes.context.classes.get? super = some info ∧
        e.ty = .cls origin fields methods ∧
        R.inherit c = (some e, { fields, methods, members := info.members }, R) := by
  have hbad : ∀ super, (R.report c.span.start (.badSuper c.name super)).errors ≠ [] := by
    simp [report]
  rw [inherit] at h ⊢
  cases hsuper : c.super with
  | none => exact .inl ⟨rfl, rfl⟩
  | some super =>
    rw [hsuper] at h
    dsimp only at h ⊢
    split at h
    · next e info hclass hinfo =>
      split at h
      · next origin fields methods hty =>
        exact .inr ⟨super, e, info, origin, fields, methods, rfl, hclass, hinfo, hty, rfl⟩
      · exact absurd h (hbad super)
    · exact absurd h (hbad super)

/-! ### The walk of a class -/

/-- The state that a class finds, after what it inherits was looked up and its offset taken. -/
def entered (R : Resolver) (c : ClassDecl) : Resolver := (R.inherit c).2.2.takeLocal.2

/-- The superclass that the context records for a class. -/
def superOf (R : Resolver) (c : ClassDecl) : Option Text :=
  if (R.inherit c).1.isSome then c.super else none

/-- What the context knows of a class with a layout. -/
def infoWith (R : Resolver) (c : ClassDecl) (l : Layout) : ClassInfo :=
  ⟨l.members, ⟨R.level, l.ty c.span.start.offset, R.nextLocal, .cls, c.span⟩⟩

/-- The state in which members are laid out: the name of the class is declared, if it is new. -/
def named (R : Resolver) (c : ClassDecl) : Resolver :=
  if (R.entered c).taken c.name then
    (R.entered c).report c.span.start (.redeclared .cls c.name)
  else (R.entered c).record c.name (R.superOf c) (R.infoWith c (R.inherit c).2.1)

/-- The fields of a class laid out. -/
def laidFields (R : Resolver) (c : ClassDecl) : List Field × Layout × Resolver :=
  (R.named c).fields c.name (R.level + 1) (R.inherit c).2.1 c.fields

/-- The methods of a class laid out. -/
def laidMethods (R : Resolver) (c : ClassDecl) : List Int × Layout × Resolver :=
  (R.laidFields c).2.2.methods c.name (R.level + 1) (R.laidFields c).2.1 c.methods

/-- The layout of a class. -/
def layoutOf (R : Resolver) (c : ClassDecl) : Layout := (R.laidMethods c).2.1

/-- What the context comes to know of a class. -/
def infoOf (R : Resolver) (c : ClassDecl) : ClassInfo := R.infoWith c (R.layoutOf c)

/-- The state after the members of a class were laid out. -/
def laid (R : Resolver) (c : ClassDecl) : Resolver :=
  if (R.entered c).taken c.name then (R.laidMethods c).2.2
  else (R.laidMethods c).2.2.record c.name (R.superOf c) (R.infoOf c)

/-- The states that the walk goes through while it declares a class. -/
theorem header_eq (R : Resolver) (c : ClassDecl) :
    R.header c = ((R.laidFields c).1, (R.laidMethods c).1, R.layoutOf c, (R.inherit c).1,
      (R.infoOf c).entry, R.laid c) := by
  have hstill := R.inherit_still c
  have hlevel : (R.inherit c).2.2.level = R.level := hstill.kept.level_eq
  have hoffset : (R.inherit c).2.2.takeLocal.1 = R.nextLocal := hstill.nextLocal
  have htaken : (R.inherit c).2.2.takeLocal.2.taken c.name = (R.entered c).taken c.name := rfl
  unfold header
  dsimp only
  rw [hlevel, hoffset, htaken]
  unfold laid infoOf layoutOf laidMethods laidFields named infoWith superOf
  cases (R.entered c).taken c.name with
  | true => rfl
  | false => rfl

/-- The members of a class are laid out after those that it inherits. -/
theorem layoutOf_addsAll (R : Resolver) (c : ClassDecl) :
    (R.inherit c).2.1.AddsAll (c.members (R.level + 1)) (R.layoutOf c) :=
  (fields_addsAll _ c.name _ _ c.fields).append (methods_addsAll _ c.name _ _ c.methods)

theorem entered_scopes (R : Resolver) (c : ClassDecl) : (R.entered c).scopes = R.scopes :=
  (R.inherit_still c).scopes

theorem taken_entered (ht : R.scopes.tables = [global]) (c : ClassDecl) :
    (R.entered c).taken c.name = (global.get? c.name).isSome := by
  rw [taken, R.entered_scopes, ht]
  rfl

theorem named_still (R : Resolver) (c : ClassDecl) : (R.named c).Still (R.laidMethods c).2.2 :=
  (fields_still _ _ _ _ _).trans (methods_still _ _ _ _ _)

/-- The scopes after a class was declared: a class whose name is taken leaves no trace. -/
def scopesAfter (R : Resolver) (global : Table Entry) (c : ClassDecl) : Scopes :=
  match global.get? c.name with
  | some _ => R.scopes
  | none => ⟨[global.put c.name (R.infoOf c).entry],
      R.scopes.context.declare c.name (R.superOf c) (R.infoOf c)⟩

/-- What a class leaves in the scopes and in the context. -/
theorem laid_scopes (ht : R.scopes.tables = [global]) (c : ClassDecl) :
    (R.laid c).scopes = R.scopesAfter global c := by
  have ht' : (R.entered c).scopes.tables = [global] := by rw [entered_scopes, ht]
  have hstill := R.named_still c
  unfold laid scopesAfter
  unfold named at hstill
  rw [taken_entered ht] at hstill ⊢
  cases hget : global.get? c.name with
  | some e =>
    rw [hget] at hstill
    exact hstill.scopes.trans (R.entered_scopes c)
  | none =>
    rw [hget] at hstill
    simp only [Option.isSome_none, Bool.false_eq_true, if_false] at hstill ⊢
    rw [scopes_record_record ht' hstill, R.entered_scopes]

theorem laid_nextLocal (R : Resolver) (c : ClassDecl) : (R.laid c).nextLocal = R.nextLocal - 1 := by
  have hentered : (R.entered c).nextLocal = R.nextLocal - 1 :=
    congrArg (· - 1) (R.inherit_still c).nextLocal
  have hnamed : (R.named c).nextLocal = R.nextLocal - 1 := by
    rw [← hentered, named]
    split
    · rfl
    · exact nextLocal_record _ _ _ _
  rw [← hnamed, ← (R.named_still c).nextLocal, laid]
  split
  · rfl
  · exact nextLocal_record _ _ _ _

theorem named_errors (R : Resolver) (c : ClassDecl) :
    (R.inherit c).2.2.errors <+: (R.named c).errors := by
  rw [named]
  split
  · exact prefix_append _ _
  · rw [errors_record]
    exact prefix_rfl

theorem laid_errors (R : Resolver) (c : ClassDecl) :
    (R.laid c).errors = (R.laidMethods c).2.2.errors := by
  rw [laid]
  split
  · rfl
  · exact errors_record _ _ _ _

theorem note_still (R : Resolver) (name : Text) (l : Layout) : R.Still (R.note name l) := by
  rw [note]
  split
  · exact .refl R
  · exact ⟨prefix_rfl, rfl, rfl⟩

end Resolver

namespace ClassDecl

variable {R : Resolver} {global : Table Entry} {c : ClassDecl}

/-- The state before the bodies of the methods of a class, in the scope of its members. -/
def atBodies (R : Resolver) (c : ClassDecl) : Resolver :=
  (R.laid c).enter (R.layoutOf c).members

/-- The methods of a class with everything in them resolved, and the state after them. -/
def bodies (R : Resolver) (c : ClassDecl) : List Method × Resolver :=
  resolveMethods (c.atBodies R) (R.laidMethods c).1 c.methods

/-- The walk of a class in three parts: what it inherits, its layout, and the bodies of its
methods. -/
theorem resolve_eq (R : Resolver) (c : ClassDecl) :
    c.resolve R =
      (⟨c.span, c.name, c.super, (R.laidFields c).1, (c.bodies R).1, some (R.infoOf c).entry,
          (R.inherit c).1⟩,
        ((c.bodies R).2.leave (R.laid c).nextLocal).note c.name (R.layoutOf c)) := by
  obtain ⟨span, name, super, fs, ms, entry, superEntry⟩ := c
  rw [ClassDecl.resolve, Resolver.header_eq]
  rfl

theorem bodies_still (hplain : c.Plain) (R : Resolver) : (c.atBodies R).Still (c.bodies R).2 :=
  resolveMethods_still c.methods hplain.2 _ _

theorem bodies_plain (hplain : c.Plain) (R : Resolver) : ∀ m ∈ (c.bodies R).1, m.routine.Plain :=
  resolveMethods_plain c.methods hplain.2 _ _

/-- After a class its name and its members are known, unless the name was taken. -/
theorem resolve_scopes (hplain : c.Plain) (ht : R.scopes.tables = [global]) :
    (c.resolve R).2.scopes = R.scopesAfter global c := by
  rw [resolve_eq]
  dsimp only
  rw [(Resolver.note_still _ _ _).scopes, ← R.laid_scopes ht, Resolver.leave,
    (c.bodies_still hplain R).scopes]
  rfl

theorem resolve_nextLocal (R : Resolver) (c : ClassDecl) :
    (c.resolve R).2.nextLocal = R.nextLocal - 1 := by
  rw [resolve_eq, ← R.laid_nextLocal c]
  exact (Resolver.note_still _ _ _).nextLocal

theorem resolve_errors (hplain : c.Plain) (R : Resolver) : R.errors <+: (c.resolve R).2.errors := by
  have hlaid : R.errors <+: (R.laid c).errors := by
    rw [R.laid_errors]
    exact ((R.inherit_still c).errors.trans (R.named_errors c)).trans (R.named_still c).errors
  rw [resolve_eq]
  refine (hlaid.trans (c.bodies_still hplain R).errors).trans ?_
  exact (Resolver.note_still ((c.bodies R).2.leave _) _ _).errors

/-! ### Classes without errors -/

/-- A class without errors: its name is new, and there are no errors after any of its parts. -/
structure Clean (R : Resolver) (global : Table Entry) (c : ClassDecl) : Prop where
  fresh : global.get? c.name = none
  inherit : (R.inherit c).2.2.errors = []
  fields : (R.laidFields c).2.2.errors = []
  methods : (R.laidMethods c).2.2.errors = []
  bodies : (c.bodies R).2.errors = []

/-- The bodies of a class are walked last, so no error there means that there is none in the layout
either. -/
theorem clean_of_bodies (hplain : c.Plain) (ht : R.scopes.tables = [global])
    (hbodies : (c.bodies R).2.errors = []) : c.Clean R global := by
  have hlaid : (R.laid c).errors = [] := (c.bodies_still hplain R).clean hbodies
  have hmethods : (R.laidMethods c).2.2.errors = [] := R.laid_errors c ▸ hlaid
  have hfields : (R.laidFields c).2.2.errors = [] :=
    (Resolver.methods_still _ _ _ _ _).clean hmethods
  have hnamed : (R.named c).errors = [] := (Resolver.fields_still _ _ _ _ _).clean hfields
  have hinherit := prefix_nil.mp (hnamed ▸ R.named_errors c)
  refine ⟨?_, hinherit, hfields, hmethods, hbodies⟩
  rw [Resolver.named, Resolver.taken_entered ht] at hnamed
  cases hget : global.get? c.name with
  | none => rfl
  | some e =>
    rw [hget, Option.isSome_some, if_pos rfl, Resolver.report] at hnamed
    exact absurd hnamed (by simp)

/-- A walk without errors is one at all its parts, since errors are only added. -/
theorem clean_of_resolve (hplain : c.Plain) (ht : R.scopes.tables = [global])
    (hclean : (c.resolve R).2.errors = []) : c.Clean R global := by
  rw [ClassDecl.resolve_eq] at hclean
  have hleft := (Resolver.note_still _ _ _).clean hclean
  exact clean_of_bodies hplain ht hleft

namespace Clean

variable (hc : c.Clean R global)

include hc

/-- The superclass that a class names is the one that is recorded. -/
theorem superOf_eq : R.superOf c = c.super := by
  obtain ⟨hsuper, heq⟩ | ⟨_, _, _, _, _, _, _, _, _, _, heq⟩ := Resolver.inherit_clean hc.inherit
  · rw [Resolver.superOf, heq, hsuper]
    rfl
  · rw [Resolver.superOf, heq]
    rfl

theorem laid_scopes (ht : R.scopes.tables = [global]) :
    (R.laid c).scopes = ⟨[global.put c.name (R.infoOf c).entry],
      R.scopes.context.declare c.name c.super (R.infoOf c)⟩ := by
  rw [R.laid_scopes ht, Resolver.scopesAfter, hc.fresh, hc.superOf_eq]

/-- After a class without errors its name and its members are known. -/
theorem scopes (hplain : c.Plain) (ht : R.scopes.tables = [global]) :
    (c.resolve R).2.scopes = ⟨[global.put c.name (R.infoOf c).entry],
      R.scopes.context.declare c.name c.super (R.infoOf c)⟩ := by
  rw [resolve_scopes hplain ht, ← R.laid_scopes ht, hc.laid_scopes ht]

/-- The names in the bodies of methods are those of members, and around them those of classes. -/
theorem locate_atBodies (ht : R.scopes.tables = [global]) {name : Text} {i : Nat} {e : Entry}
    (h : Scopes.locate (c.atBodies R).scopes.tables name = some (i, e)) :
    i = 0 ∧ (R.layoutOf c).members.get? name = some e ∨
      i = 1 ∧ (global.put c.name (R.infoOf c).entry).get? name = some e := by
  have htables : (c.atBodies R).scopes.tables =
      [(R.layoutOf c).members, global.put c.name (R.infoOf c).entry] :=
    congrArg (_ :: ·) (congrArg Scopes.tables (hc.laid_scopes ht))
  obtain hinner | ⟨j, rfl, hj⟩ := Scopes.locate_cons (htables ▸ h)
  · exact .inl hinner
  · obtain ⟨rfl, hget⟩ := Scopes.locate_singleton.mp hj
    exact .inr ⟨rfl, hget⟩

/-- The members of a class without errors have the entries that are written down for them. -/
theorem accepts :
    (R.inherit c).2.1.Accepts (memberEntries (R.level + 1) (R.laidFields c).1 (c.bodies R).1)
      (R.layoutOf c) :=
  (Resolver.fields_accepts hc.fields).append (Resolver.methods_accepts hc.methods _)

end Clean

end ClassDecl

/-! ### All classes -/

theorem resolveClasses_errors {cs : List ClassDecl} (hplain : ∀ c ∈ cs, c.Plain) (R : Resolver) :
    R.errors <+: (resolveClasses R cs).2.errors := by
  induction cs generalizing R with
  | nil => exact prefix_rfl
  | cons c cs ih =>
    exact (ClassDecl.resolve_errors (hplain c mem_cons_self) R).trans
      (ih (forall_mem_cons.mp hplain).2 _)

/-- Classes without errors, the first one apart. -/
theorem resolveClasses_cons_clean {R : Resolver} {c : ClassDecl} {cs : List ClassDecl}
    (hplain : ∀ d ∈ c :: cs, d.Plain) (hclean : (resolveClasses R (c :: cs)).2.errors = []) :
    c.Plain ∧ (c.resolve R).2.errors = [] ∧ (∀ d ∈ cs, d.Plain) ∧
      (resolveClasses (c.resolve R).2 cs).2.errors = [] := by
  obtain ⟨hc, hcs⟩ := forall_mem_cons.mp hplain
  have hrest : (resolveClasses (c.resolve R).2 cs).2.errors = [] := hclean
  exact ⟨hc, prefix_nil.mp (hrest ▸ resolveClasses_errors hcs _), hcs, hrest⟩

/-- What is known of the classes declared before stays. -/
theorem resolveClasses_get? {cs : List ClassDecl} (hplain : ∀ c ∈ cs, c.Plain) {R : Resolver}
    {global : Table Entry} (ht : R.scopes.tables = [global])
    (hclean : (resolveClasses R cs).2.errors = []) {name : Text} {e : Entry}
    (hname : global.get? name = some e) :
    (resolveClasses R cs).2.scopes.context.classes.get? name =
        R.scopes.context.classes.get? name ∧
      (resolveClasses R cs).2.scopes.context.supers.get? name =
        R.scopes.context.supers.get? name := by
  induction cs generalizing R global with
  | nil => exact ⟨rfl, rfl⟩
  | cons c cs ih =>
    obtain ⟨hp, hclean', hcs, hrest⟩ := resolveClasses_cons_clean hplain hclean
    have hc := ClassDecl.clean_of_resolve hp ht hclean'
    have hne : name ≠ c.name := by
      rintro rfl
      rw [hc.fresh] at hname
      cases hname
    have hlater := ih hcs (by rw [hc.scopes hp ht]) hrest
      ((Table.get?_put_of_ne _ _ hne).trans hname)
    rw [hc.scopes hp ht] at hlater
    exact ⟨hlater.1.trans (Table.get?_put_of_ne _ _ hne),
      hlater.2.trans (Context.get?_supers_declare_of_ne _ _ _ hne)⟩

end Foolscap
