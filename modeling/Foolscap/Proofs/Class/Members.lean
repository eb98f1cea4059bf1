import Foolscap.Proofs.Class.Layout
import Foolscap.Proofs.Scope.Walk
import Foolscap.Proofs.Typing.Quiet

/-!
# Members of a class

The walk over the members of a class.  It declares nothing in the scopes around, and without errors
every member has the entry that is written down for it.
-/

namespace Foolscap

open List

/-! ### The walk over members -/

namespace Resolver

variable (r : Resolver)

theorem reports_still (pos : Position) (names : List Text) :
    r.Still (names.foldl (fun r name => r.report pos (.noClass name)) r) := by
  induction names generalizing r with
  | nil => exact .refl r
  | cons name names ih =>
    have hreport : r.Still (r.report pos (.noClass name)) := ⟨prefix_append _ _, rfl, rfl⟩
    exact hreport.trans (ih _)

theorem checkNames_still (pos : Position) (t : Ty) : r.Still (r.checkNames pos t) :=
  r.reports_still pos _

theorem placed_still (pos : Position) (p : Layout.Placed) : r.Still (r.placed pos p) := by
  rw [placed]
  cases p.error with
  | none => exact ⟨prefix_rfl, rfl, rfl⟩
  | some e => exact ⟨prefix_append _ _, rfl, rfl⟩

variable {r} in
theorem error_eq_none_of_placed {pos : Position} {p : Layout.Placed}
    (h : (r.placed pos p).errors = []) : p.error = none := by
  rw [placed] at h
  cases he : p.error with
  | none => rfl
  | some e =>
    rw [he] at h
    simp [report, breakIf] at h

theorem fields_still (cls : Text) (level : Nat) (l : Layout) (fs : List Field) :
    r.Still (r.fields cls level l fs).2.2 := by
  induction fs generalizing r l with
  | nil => exact .refl r
  | cons f fs ih =>
    exact (r.checkNames_still _ _).trans ((placed_still _ _ _).trans (ih _ _))

theorem methods_still (cls : Text) (level : Nat) (l : Layout) (ms : List Method) :
    r.Still (r.methods cls level l ms).2.2 := by
  induction ms generalizing r l with
  | nil => exact .refl r
  | cons m ms ih =>
    exact (r.checkNames_still _ _).trans ((placed_still _ _ _).trans (ih _ _))

end Resolver

theorem resolveMethods_still (ms : List Method) (hplain : ∀ m ∈ ms, m.routine.Plain) :
    ∀ (r : Resolver) (offsets : List Int), r.Still (resolveMethods r offsets ms).2 := by
  induction ms with
  | nil => exact fun r _ => by rw [resolveMethods]; exact .refl r
  | cons m ms ih =>
    obtain ⟨f, offset⟩ := m
    intro r offsets
    rw [resolveMethods]
    exact (Routine.resolveInside_still f (hplain _ mem_cons_self) r).trans
      (ih (forall_mem_cons.mp hplain).2 _ _)

theorem resolveMethods_plain (ms : List Method) (hplain : ∀ m ∈ ms, m.routine.Plain) :
    ∀ (r : Resolver) (offsets : List Int),
      ∀ m ∈ (resolveMethods r offsets ms).1, m.routine.Plain := by
  induction ms with
  | nil => exact fun r _ m hm => by rw [resolveMethods] at hm; cases hm
  | cons m ms ih =>
    obtain ⟨f, offset⟩ := m
    intro r offsets m' hm'
    rw [resolveMethods] at hm'
    rcases mem_cons.mp hm' with rfl | hm'
    · exact Routine.resolveInside_plain f (hplain _ mem_cons_self) r
    · exact ih (forall_mem_cons.mp hplain).2 _ _ m' hm'

/-! ### Types -/

/-- A type that a member of a kind can have: no part of it is missing, and that of a method is a
function type. -/
def EntryKind.Bears (kind : EntryKind) (t : Ty) : Prop :=
  t.isComplete ∧ (kind = .method → ∃ params ret, t = .arrow params ret)

theorem ClassDecl.Plain.bears {c : ClassDecl} (h : c.Plain) {level : Nat} {m : Text × Entry}
    (hm : m ∈ c.members level) : m.2.kind.Bears m.2.ty := by
  rcases mem_append.mp hm with hm | hm
  · obtain ⟨f, hf, rfl⟩ := mem_map.mp hm
    exact ⟨h.1 f hf, nofun⟩
  · obtain ⟨method, hmethod, rfl⟩ := mem_map.mp hm
    exact ⟨(h.2 method hmethod).signature, fun _ => ⟨_, _, rfl⟩⟩

/-- The type of a class whose members have complete types is complete, since there is a member at
each of its positions. -/
theorem Layout.Sound.isComplete_ty {l : Layout} (h : l.Sound)
    (hl : ∀ name e, l.members.get? name = some e → e.ty.isComplete) (origin : Nat) :
    (l.ty origin).isComplete := by
  have htypes := h.forall_types (P := fun _ t => t.isComplete) hl
  rw [Layout.ty, Ty.isComplete, Ty.allComplete_eq_all, Ty.allComplete_eq_all, Bool.and_eq_true,
    all_eq_true, all_eq_true]
  exact ⟨htypes .field, htypes .method⟩

/-! ### Members without errors -/

namespace Layout

/-- Members that are laid out without errors, with the offsets that they are given. -/
inductive Accepts : Layout → List (Text × Entry) → Layout → Prop where
  | nil (l : Layout) : Accepts l [] l
  | cons {l l' : Layout} {name : Text} {e : Entry} {ms : List (Text × Entry)} {p : Placed}
      (head : l.Adds name e p) (clean : p.error = none) (tail : Accepts p.layout ms l') :
      Accepts l ((name, { e with offset := p.offset }) :: ms) l'

namespace Accepts

variable {l l' l'' : Layout} {ms ms' : List (Text × Entry)} (h : Accepts l ms l')

include h

theorem append (h' : Accepts l' ms' l'') : Accepts l (ms ++ ms') l'' := by
  induction h with
  | nil => exact h'
  | cons head clean _ ih => exact .cons head clean (ih h')

/-- A name that the class has declared keeps its entry, and no other member has it. -/
theorem declared {name : Text} (hname : name ∈ l.declared) :
    l'.members.get? name = l.members.get? name ∧ ∀ m ∈ ms, m.1 ≠ name := by
  induction h with
  | nil => exact ⟨rfl, nofun⟩
  | @cons l l' own e ms p head clean _ ih =>
    obtain ⟨hnew, hdeclared, -⟩ := head.accepted clean
    obtain ⟨hget, hne⟩ := ih (hdeclared ▸ mem_cons_of_mem _ hname)
    have hother : name ≠ own := fun heq => hnew (heq ▸ hname)
    exact ⟨hget.trans (head.get?_of_ne hother), forall_mem_cons.mpr ⟨hother.symm, hne⟩⟩

/-- Every member has its entry. -/
theorem get? : ∀ m ∈ ms, l'.members.get? m.1 = some m.2 := by
  induction h with
  | nil => nofun
  | cons head clean tail ih =>
    obtain ⟨-, hdeclared, hmembers⟩ := head.accepted clean
    refine forall_mem_cons.mpr ⟨?_, ih⟩
    rw [(tail.declared (hdeclared ▸ mem_cons_self)).1, hmembers, Table.get?_put_self]

/-- The offsets do not matter to the layout. -/
theorem addsAll : AddsAll l ms l' := by
  induction h with
  | nil l => exact .nil l
  | cons head _ _ ih =>
    refine .cons ?_ ih
    cases head with
    | redeclared h₁ h₂ h₃ h₄ => exact .redeclared h₁ h₂ h₃ h₄
    | clash h₁ h₂ h₃ h₄ h₅ h₆ => exact .clash h₁ h₂ h₃ h₄ h₅ h₆
    | fresh h₁ h₂ h₃ h₄ h₅ h₆ h₇ h₈ => exact .fresh h₁ h₂ h₃ h₄ h₅ h₆ h₇ h₈
    | override i h₁ h₂ h₃ h₄ h₅ h₆ h₇ h₈ h₉ h => exact .override i h₁ h₂ h₃ h₄ h₅ h₆ h₇ h₈ h₉ h

/-- A position at which no member is declared keeps its type. -/
theorem type_kept (hl : l.Sound) {kind : EntryKind} {i : Nat} (hi : i < (l.types kind).length)
    (hnot : ∀ m ∈ ms, m.2.kind = kind → m.2.offset ≠ Frame.place kind i) :
    (l'.types kind)[i]? = (l.types kind)[i]? := by
  refine h.addsAll.type_kept hl hi fun m hm e he => ?_
  obtain rfl := Option.some.inj ((h.get? m hm).symm.trans he)
  exact hnot m hm

end Accepts

end Layout

/-- The entry of a field at its offset. -/
def Field.entryAt (f : Field) (level : Nat) : Entry := { f.member level with offset := f.offset }

/-- The entry of a method in its slot. -/
def Method.entryAt (m : Method) (level : Nat) : Entry :=
  { m.routine.member level with offset := m.offset }

/-- The entries of fields and methods, at the offsets that they were given. -/
def memberEntries (level : Nat) (fs : List Field) (ms : List Method) : List (Text × Entry) :=
  fs.map (fun f => (f.name, f.entryAt level)) ++ ms.map fun m => (m.routine.name, m.entryAt level)

namespace Resolver

variable {R : Resolver} {cls : Text} {level : Nat} {l : Layout}

/-- Fields without errors. -/
theorem fields_accepts {fs : List Field} (hclean : (R.fields cls level l fs).2.2.errors = []) :
    l.Accepts ((R.fields cls level l fs).1.map fun f => (f.name, f.entryAt level))
      (R.fields cls level l fs).2.1 := by
  induction fs generalizing R l with
  | nil => exact .nil l
  | cons f fs ih =>
    have herror := error_eq_none_of_placed ((fields_still _ cls level _ fs).clean hclean)
    exact .cons (l.addField_adds cls level f) herror (ih hclean)

/-- Methods without errors. -/
theorem methods_accepts {ms : List Method} (hclean : (R.methods cls level l ms).2.2.errors = [])
    (R' : Resolver) :
    l.Accepts ((resolveMethods R' (R.methods cls level l ms).1 ms).1.map fun m =>
      (m.routine.name, m.entryAt level)) (R.methods cls level l ms).2.1 := by
  induction ms generalizing R R' l with
  | nil =>
    rw [resolveMethods]
    exact .nil l
  | cons m ms ih =>
    obtain ⟨⟨span, name, ret, params, decls, body⟩, offset⟩ := m
    have herror := error_eq_none_of_placed ((methods_still _ cls level _ ms).clean hclean)
    rw [methods, resolveMethods, Routine.resolveInside]
    exact .cons (l.addMethod_adds cls level ⟨span, name, ret, params, decls, body⟩ offset) herror
      (ih hclean _)

end Resolver

/-! ### Redeclared members -/

namespace Typing

variable {h : Hierarchy} {cls : Text} {own super : List Ty}

theorem quiet_singleton {x : Halt} : Quiet [x] ↔ x = .incomplete := by simp [Quiet]

/-- Where a check is quiet, each of its parts is. -/
theorem quiet_flatMap {α : Type} {as : List α} {f : α → List Halt} (hq : Quiet (as.flatMap f))
    {a : α} (ha : a ∈ as) : Quiet (f a) :=
  fun x hx => hq x (mem_flatMap.mpr ⟨a, ha, hx⟩)

/-- A member that a class redeclares has a type below the inherited one, if the check says
nothing. -/
theorem refinesAt_quiet {position : Int} {pos : Position} {wrong : Ty → Ty → TypeError} {i : Nat}
    (hposition : position = i) (hi : i < super.length)
    (hq : Quiet (refinesAt h own super position fun got want => .illAt pos (wrong got want))) :
    ∃ got want, own[i]? = some got ∧ super[i]? = some want ∧ h.isSubtype got want := by
  rw [refinesAt, hposition, if_pos (by omega), if_neg (by omega), Int.toNat_natCast] at hq
  split at hq
  · next got want hgot hwant =>
    split at hq
    · next hsub => exact ⟨got, want, hgot, hwant, hsub⟩
    · cases quiet_singleton.mp hq
  · cases quiet_singleton.mp hq

end Typing

end Foolscap
