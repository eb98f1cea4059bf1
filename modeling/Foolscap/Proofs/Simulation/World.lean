import Foolscap.Assembly.Generate
import Foolscap.Proofs.Scope.Walk
import Foolscap.Proofs.Simulation.Loaded
import Foolscap.Proofs.Typing.Quiet

/-!
# Worlds

What holds of a loaded program at any time: its routines were resolved and checked without errors
and lie in the code, and its classes have their members where the members of their superclasses
are.
-/

namespace Foolscap

open List

namespace Loaded

/-- A routine that was resolved in some scopes and checked, both without errors, and whose code
stands under a label. -/
structure Emitted (L : Loaded) (R : Resolver) (l : Label) (r : Routine) : Prop where
  plain : r.Plain
  site : Site L.context R.scopes
  clean : (r.resolveInside R).2.errors = []
  quiet : ∃ isMethod, Typing.Quiet ((r.resolveInside R).1.check L.context.supers isMethod)
  emitted : ∃ g k, ((r.resolveInside R).1.emit l g).routines ++ k <:+ L.lines

/-- A method of a class.  It was resolved among the members of the class and the names of
classes. -/
def MethodOK (L : Loaded) (owner : Text) (l : Label) (r : Routine) : Prop :=
  ∃ (info : ClassInfo) (R : Resolver) (names : Table Entry),
    L.context.classes.get? owner = some info ∧ R.scopes.tables = [info.members, names] ∧
      (∀ name e, names.get? name = some e → e.kind = .cls) ∧ L.Emitted R l r

/-- Where the members of a class are: fields at their positions in objects, methods at their slots
of the dispatch table, and the address of that table in the global frame. -/
structure ClassOK (L : Loaded) (cls : Text) (info : ClassInfo) (shape : ClassShape)
    (labels : List Label) : Prop where
  info_eq : L.context.classes.get? cls = some info
  shape_eq : L.shapes.get? cls = some shape
  labels_eq : L.tables.get? cls = some labels
  global : ∃ earlier later, L.tables = earlier ++ (cls, labels) :: later ∧
    info.entry.offset = -2 - (earlier.length : Int)
  entry_ty : ∃ origin methods, info.entry.ty = .cls origin info.fieldTypes methods
  nodup : shape.fields.Nodup
  types_length : info.fieldTypes.length = shape.fields.length
  types_complete : ∀ t ∈ info.fieldTypes, t.isComplete
  members_complete : ∀ name e, info.members.get? name = some e → e.ty.isComplete
  kinds : ∀ name e, info.members.get? name = some e → e.kind = .field ∨ e.kind = .method
  field_mem : ∀ name ∈ shape.fields, ∃ e, info.members.get? name = some e ∧ e.kind = .field
  field : ∀ name e, info.members.get? name = some e → e.kind = .field →
    ∃ i : Nat, e.offset = -1 - (i : Int) ∧ shape.fields[i]? = some name ∧
      info.fieldTypes[i]? = some e.ty
  method : ∀ name e, info.members.get? name = some e → e.kind = .method →
    ∃ (j : Nat) (owner : Text) (r : Routine) (l : Label), e.offset = j ∧ e.ty = r.signature ∧
      shape.methods.get? name = some (owner, r) ∧ labels[j]? = some l ∧
      L.context.supers.isSubclass cls owner ∧ L.MethodOK owner l r

/-- The first class has the members of the second one at the same places, with types below. -/
def Refines (L : Loaded) (cls super : Text) : Prop :=
  ∀ info' shape' labels', L.ClassOK super info' shape' labels' →
    ∃ info shape labels, L.ClassOK cls info shape labels ∧ shape'.fields <+: shape.fields ∧
      (∀ (i : Nat) t', info'.fieldTypes[i]? = some t' →
        ∃ t, info.fieldTypes[i]? = some t ∧ L.context.supers.isSubtype t t') ∧
      ∀ name e', info'.members.get? name = some e' → e'.kind = .method →
        ∃ e, info.members.get? name = some e ∧ e.kind = .method ∧ e.offset = e'.offset ∧
          L.context.supers.isSubtype e.ty e'.ty

variable {L : Loaded}

theorem Refines.refl (cls : Text) : L.Refines cls cls := by
  intro info shape labels hok
  refine ⟨info, shape, labels, hok, prefix_rfl, fun i t ht => ?_, fun name e he hk => ?_⟩
  · exact ⟨t, ht, Hierarchy.isSubtype_refl (hok.types_complete t (mem_of_getElem? ht))⟩
  · exact ⟨e, he, hk, rfl, Hierarchy.isSubtype_refl (hok.members_complete name e he)⟩

/-- A class that refines one that refines a third has all members of the third at their places. -/
theorem Refines.trans {a b c : Text} (hab : L.Refines a b) (hbc : L.Refines b c) :
    L.Refines a c := by
  intro info₃ shape₃ labels₃ hc
  obtain ⟨info₂, shape₂, labels₂, hb, hfields, htypes, hmethods⟩ := hbc _ _ _ hc
  obtain ⟨info₁, shape₁, labels₁, ha, hfields', htypes', hmethods'⟩ := hab _ _ _ hb
  refine ⟨info₁, shape₁, labels₁, ha, hfields.trans hfields', fun i t₃ ht₃ => ?_,
    fun name e₃ he₃ hk₃ => ?_⟩
  · obtain ⟨t₂, ht₂, hsub⟩ := htypes i t₃ ht₃
    obtain ⟨t₁, ht₁, hsub'⟩ := htypes' i t₂ ht₂
    exact ⟨t₁, ht₁, Hierarchy.isSubtype_trans hsub' hsub⟩
  · obtain ⟨e₂, he₂, hk₂, hoff, hsub⟩ := hmethods name e₃ he₃ hk₃
    obtain ⟨e₁, he₁, hk₁, hoff', hsub'⟩ := hmethods' name e₂ he₂ hk₂
    exact ⟨e₁, he₁, hk₁, hoff'.trans hoff, Hierarchy.isSubtype_trans hsub' hsub⟩

/-! ### The global frame -/

/-- The part of the global frame that holds the addresses of the dispatch tables. -/
def globals (L : Loaded) : List Word :=
  if L.tables.isEmpty then []
  else (L.tables.map fun t => Int64.ofNat (L.tableAt t.1)).reverse ++ [0]

/-- The address of the dispatch table of a class is in the global frame. -/
theorem ClassOK.class_cell {cls : Text} {info : ClassInfo} {shape : ClassShape}
    {labels : List Label} (hok : L.ClassOK cls info shape labels) {H S : List Word}
    (hS : L.globals <:+ S) (hle : S.length ≤ L.size) :
    ∃ b : Nat, (L.size : Int) + info.entry.offset = b ∧
      Cell L.size H S b (Int64.ofNat (L.tableAt cls)) := by
  obtain ⟨earlier, later, htables, hoffset⟩ := hok.global
  have hsuffix : Int64.ofNat (L.tableAt cls) ::
      ((earlier.map fun t => Int64.ofNat (L.tableAt t.1)).reverse ++ [0]) <:+ S := by
    refine List.IsSuffix.trans ⟨(later.map fun t => Int64.ofNat (L.tableAt t.1)).reverse, ?_⟩ hS
    rw [globals, if_neg (by simp [htables])]
    simp [htables]
  have hlen := hsuffix.length_le
  simp only [length_cons, length_append, length_reverse, length_map,
    length_nil] at hlen
  refine ⟨L.size - (earlier.length + 2), by omega, .of_suffix hsuffix ?_⟩
  simp only [length_append, length_reverse, length_map, length_cons,
    length_nil]
  omega

end Loaded

/-- A loaded program whose classes have their members where those of their superclasses are. -/
structure World extends Loaded where
  classOK : ∀ cls info, context.classes.get? cls = some info →
    ∃ shape labels, toLoaded.ClassOK cls info shape labels
  refines : ∀ cls super, context.supers.Extends cls super → toLoaded.Refines cls super

namespace World

variable (W : World)

/-- A class has the members of every class above it. -/
theorem refines_of_isSubclass {cls super : Text} (h : W.context.supers.isSubclass cls super) :
    W.Refines cls super := by
  induction Hierarchy.isSubclass_iff.mp h with
  | refl => exact .refl cls
  | tail _ hlast ih => exact (ih (Hierarchy.isSubclass_iff.mpr ‹_›)).trans (W.refines _ _ hlast)

theorem complete : W.context.Complete := by
  intro cls info hinfo name e he
  obtain ⟨shape, labels, hok⟩ := W.classOK cls info hinfo
  exact hok.members_complete name e he

end World

end Foolscap
