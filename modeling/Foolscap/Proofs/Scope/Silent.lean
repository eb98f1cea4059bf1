import Foolscap.Proofs.Class.Described
import Foolscap.Proofs.Scope.Lexical

/-!
# Parts of the walk without uses of names

What the walk that resolves names reports outside of expressions: names that are declared twice,
members that clash, and classes that are not declared.  None of that is about a use of a variable,
function or object, and the tree makes sense all the same.
-/

namespace Foolscap

open List

namespace Resolver

/-- A part of the walk that reports nothing but scope errors of declarations. -/
structure Silent (R R' : Resolver) : Prop where
  errors : ∃ ds, R'.errors = R.errors ++ ds ∧
    ∀ d ∈ ds, d.phase = .scoping ∧ d.isUndeclared = false
  broken : R'.broken = R.broken

namespace Silent

variable {R R' R'' : Resolver}

/-- A part of the walk that changes neither errors nor what is broken. -/
theorem of_eq (h : R'.errors = R.errors) (hb : R'.broken = R.broken) : Silent R R' :=
  ⟨⟨[], h.trans (append_nil _).symm, fun _ hd => absurd hd not_mem_nil⟩, hb⟩

theorem refl (R : Resolver) : Silent R R := .of_eq rfl rfl

theorem trans (h : Silent R R') (h' : Silent R' R'') : Silent R R'' := by
  obtain ⟨ds, hds, hall⟩ := h.errors
  obtain ⟨ds', hds', hall'⟩ := h'.errors
  refine ⟨⟨ds ++ ds', ?_, ?_⟩, h'.broken.trans h.broken⟩
  · rw [hds', hds, append_assoc]
  · intro d hd
    exact (mem_append.mp hd).elim (hall d) (hall' d)

/-- No use of a name is reported. -/
theorem undeclared (h : Silent R R') : R'.errors.filter Diagnostic.isUndeclared =
    R.errors.filter Diagnostic.isUndeclared := by
  obtain ⟨ds, hds, hall⟩ := h.errors
  have hnone : ds.filter Diagnostic.isUndeclared = [] := by
    rw [filter_eq_nil_iff]
    intro d hd
    rw [(hall d hd).2]
    nofun
  rw [hds, filter_append, hnone, append_nil]

/-- Scope errors are added to scope errors. -/
theorem scoping (h : Silent R R') (hR : ∀ d ∈ R.errors, d.phase = .scoping) :
    ∀ d ∈ R'.errors, d.phase = .scoping := by
  obtain ⟨ds, hds, hall⟩ := h.errors
  rw [hds]
  intro d hd
  exact (mem_append.mp hd).elim (hR d) fun h => (hall d h).1

end Silent

variable (R : Resolver)

theorem report_silent (pos : Position) (e : ScopeError)
    (he : Diagnostic.isUndeclared ⟨pos, .scoping e⟩ = false := by rfl) :
    R.Silent (R.report pos e) := by
  refine ⟨⟨[⟨pos, .scoping e⟩], rfl, fun d hd => ?_⟩, rfl⟩
  rw [mem_singleton.mp hd]
  exact ⟨rfl, he⟩

theorem checkNames_silent (pos : Position) (t : Ty) : R.Silent (R.checkNames pos t) := by
  rw [checkNames]
  induction R.scopes.unknownClasses t generalizing R with
  | nil => exact .refl R
  | cons name names ih => exact (R.report_silent pos (.noClass name)).trans (ih _)

theorem install_silent (name : Text) (e : Entry) : R.Silent (R.install name e) := by
  rw [install]
  split
  · exact .of_eq rfl rfl
  · exact .refl R

theorem declare_silent (pos : Position) (what : Declared) (name : Text) (e : Entry) :
    R.Silent (R.declare pos what name e) := by
  rw [declare]
  split
  · exact R.report_silent pos _
  · exact R.install_silent name e

theorem takeLocal_silent : R.Silent R.takeLocal.2 := .of_eq rfl rfl

theorem enter_silent (table : Table Entry) : R.Silent (R.enter table) := .of_eq rfl rfl

theorem leave_silent (outerLocal : Int) : R.Silent (R.leave outerLocal) := .of_eq rfl rfl

theorem var_silent (v : VarDecl) : R.Silent (R.var v) :=
  (R.checkNames_silent _ _).trans ((takeLocal_silent _).trans (declare_silent _ _ _ _ _))

theorem fn_silent (f : Routine) : R.Silent (R.fn f) :=
  (R.checkNames_silent _ _).trans ((takeLocal_silent _).trans (declare_silent _ _ _ _ _))

theorem params_silent (offset : Int) (ps : List Param) : R.Silent (R.params offset ps) := by
  induction ps generalizing R offset with
  | nil => exact .refl R
  | cons p ps ih =>
    exact (R.checkNames_silent _ _).trans ((declare_silent _ _ _ _ _).trans (ih _ _))

/-! ### Classes -/

theorem breakIf_false_silent : R.Silent (R.breakIf false) := .of_eq rfl (Bool.or_false _)

theorem placed_silent (pos : Position) {p : Layout.Placed}
    (herror : ∀ e, p.error = some e → Diagnostic.isUndeclared ⟨pos, .scoping e⟩ = false)
    (hout : p.outside = false) : R.Silent (R.placed pos p) := by
  rw [placed, hout]
  refine .trans ?_ (breakIf_false_silent _)
  split
  · next e he => exact R.report_silent pos e (herror e he)
  · exact .refl R

/-- Fields are laid out without a report of an undeclared name, and in a sound layout no place is
outside of it. -/
theorem fields_silent (cls : Text) (level : Nat) {l : Layout} (hl : l.Sound) (fs : List Field) :
    R.Silent (R.fields cls level l fs).2.2 := by
  induction fs generalizing R l with
  | nil => exact .refl R
  | cons f fs ih =>
    obtain ⟨hsound, hout⟩ := hl.adds (l.addField_adds cls level f)
    refine (R.checkNames_silent f.span.start f.annotation.ty).trans
      ((placed_silent _ _ (fun e he => ?_) hout).trans (ih _ hsound))
    rw [Layout.addField] at he
    split at he
    · cases he
      rfl
    · dsimp only at he
      split at he
      · cases he
      · split at he
        · cases he
        · cases he
          rfl

theorem methods_silent (cls : Text) (level : Nat) {l : Layout} (hl : l.Sound) (ms : List Method) :
    R.Silent (R.methods cls level l ms).2.2 := by
  induction ms generalizing R l with
  | nil => exact .refl R
  | cons m ms ih =>
    obtain ⟨hsound, hout⟩ := hl.adds (l.addMethod_adds cls level m.routine m.offset)
    refine (R.checkNames_silent m.routine.span.start m.routine.ret.ty).trans
      ((placed_silent _ _ (fun e he => ?_) hout).trans (ih _ hsound))
    rw [Layout.addMethod] at he
    split at he
    · cases he
      rfl
    · dsimp only at he
      split at he
      · cases he
      · split at he
        · cases he
        · cases he
          rfl

theorem inherit_silent (c : ClassDecl) : R.Silent (R.inherit c).2.2 := by
  rw [inherit]
  cases c.super with
  | none => exact .refl R
  | some super =>
    dsimp only
    split
    · split
      · exact .refl R
      · exact report_silent _ _ _
    · exact report_silent _ _ _

theorem record_silent (name : Text) (super : Option Text) (info : ClassInfo) :
    R.Silent (R.record name super info) :=
  (R.install_silent name info.entry).trans (.of_eq rfl rfl)

/-- Declaring a class and laying out its members. -/
theorem laid_silent {c : ClassDecl} (hsound : (R.inherit c).2.1.Sound) : R.Silent (R.laid c) := by
  have hentered : R.Silent (R.entered c) := (R.inherit_silent c).trans (takeLocal_silent _)
  have hnamed : R.Silent (R.named c) := by
    rw [named]
    split
    · exact hentered.trans (report_silent _ _ _)
    · exact hentered.trans (record_silent _ _ _ _)
  have hfields : (R.laidFields c).2.1.Sound := hsound.addsAll (fields_addsAll _ _ _ _ _)
  have hmembers : R.Silent (R.laidMethods c).2.2 :=
    (hnamed.trans ((R.named c).fields_silent _ _ hsound c.fields)).trans
      ((R.laidFields c).2.2.methods_silent _ _ hfields c.methods)
  rw [laid]
  split
  · exact hmembers
  · exact hmembers.trans (record_silent _ _ _ _)

theorem note_silent (name : Text) (l : Layout) : R.Silent (R.note name l) := by
  rw [note]
  split
  · exact .refl R
  · exact .of_eq rfl rfl

end Resolver

end Foolscap
