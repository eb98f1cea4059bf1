import Foolscap.Context
import Foolscap.Proofs.Evaluation.Growth
import Foolscap.Proofs.Machine.Blocks
import Foolscap.Proofs.Ty.Order

/-!
# Stores in memory

Where the objects of a store lie in the heap of a machine, and what types their fields have.

The heap of a program with classes starts with the global frame pointer, the dispatch tables of the
classes follow, then the objects in the order in which they were made.  An object is its fields from
the last to the first and the address of the dispatch table of its class.
-/

namespace Foolscap

open List

/-- A program in a machine: its classes, their shapes, and the routines in the slots of their
dispatch tables. -/
structure Loaded extends Setup where
  context : Context
  shapes : Table ClassShape
  tables : Table (List Label)

/-- The types of the fields of a class, by position. -/
def ClassInfo.fieldTypes (info : ClassInfo) : List Ty :=
  match info.entry.ty with
  | .cls _ fields _ => fields
  | _ => []

namespace Loaded

/-- The address of the dispatch table of a class, where the first of some tables has a given
address. -/
def tableFrom : Nat → Table (List Label) → Text → Nat
  | a, [], _ => a
  | a, (cls, labels) :: ts, name =>
    if cls = name then a else tableFrom (a + labels.length) ts name

variable (L : Loaded)

/-- The address of the dispatch table of a class. -/
def tableAt (cls : Text) : Nat := tableFrom 1 L.tables cls

/-- The word of the address of a routine. -/
def slot (l : Label) : Word := Int64.ofNat (Line.address l L.lines)

/-- The heap before any object is made. -/
def start : List Word :=
  if L.tables.isEmpty then []
  else Int64.ofNat L.size :: L.tables.flatMap fun t => t.2.map L.slot

/-- The cells of an object. -/
def cells (o : Object) : List Word := o.fields.reverse ++ [Int64.ofNat (L.tableAt o.cls)]

/-- The heap with some objects. -/
def heapOf (objects : List (Nat × Object)) : List Word :=
  L.start ++ objects.flatMap fun row => L.cells row.2

/-- The heap that stands for a store. -/
def heap (st : Store) : List Word := L.heapOf st.objects

variable {L} {st st' : Store}

@[simp] theorem length_cells (o : Object) : (L.cells o).length = o.fields.length + 1 := by
  simp [cells]

theorem heapOf_append (os os' : List (Nat × Object)) :
    L.heapOf (os ++ os') = L.heapOf os ++ os'.flatMap fun row => L.cells row.2 := by
  simp [heapOf]

theorem heapOf_isPrefix {os os' : List (Nat × Object)} (h : os <+: os') :
    L.heapOf os <+: L.heapOf os' := by
  obtain ⟨new, rfl⟩ := h
  rw [heapOf_append]
  exact prefix_append _ _

theorem heap_isPrefix (h : st.Extends st') : L.heap st <+: L.heap st' :=
  heapOf_isPrefix h.objects_isPrefix

/-- The heap is as long as the store says. -/
theorem length_heap_of_extends (h : st.Extends st') (hst : (L.heap st).length = st.next) :
    (L.heap st').length = st'.next := by
  obtain ⟨new, hobj, hnext⟩ := h
  rw [heap, hobj, heapOf_append, length_append, ← heap, hst, hnext, length_flatMap]
  simp

/-! ### Dispatch tables -/

variable {cls : Text} {labels : List Label}

/-- Dispatch tables lie one behind the other, so a slot is found from the start of its table. -/
theorem tableFrom_cell {ts : Table (List Label)} (before : List Word)
    (h : ts.get? cls = some labels) {j : Nat} {l : Label} (hj : labels[j]? = some l)
    (f : Label → Word) :
    (before ++ ts.flatMap fun t => t.2.map f)[tableFrom before.length ts cls + j]? =
      some (f l) := by
  induction ts generalizing before with
  | nil => simp at h
  | cons t ts ih =>
    obtain ⟨name, ls⟩ := t
    rw [Table.get?_cons] at h
    rw [tableFrom, flatMap_cons]
    split at h
    · next hname =>
      obtain rfl := Option.some.inj h
      have hlt : j < ls.length := (List.getElem?_eq_some_iff.mp hj).1
      rw [if_pos hname, List.getElem?_append_right (Nat.le_add_right _ _), Nat.add_sub_cancel_left,
        List.getElem?_append_left (by simpa using hlt), List.getElem?_map, hj]
      rfl
    · next hname =>
      have := ih (before ++ ls.map f) h
      rwa [if_neg hname, ← append_assoc, ← ls.length_map f, ← length_append]

section

variable (h : L.tables.get? cls = some labels)

include h

theorem start_eq : L.start = Int64.ofNat L.size :: L.tables.flatMap fun t => t.2.map L.slot := by
  rw [start, if_neg]
  intro hnil
  rw [isEmpty_iff.mp hnil] at h
  simp at h

/-- The routine in a slot of a dispatch table. -/
theorem slot_cell {j : Nat} {l : Label} (hj : labels[j]? = some l) :
    (L.heap st)[L.tableAt cls + j]? = some (L.slot l) := by
  have hcell := tableFrom_cell [Int64.ofNat L.size] h hj L.slot
  rw [singleton_append, length_singleton, ← start_eq h] at hcell
  have hlt := (List.getElem?_eq_some_iff.mp hcell).1
  rw [heap, heapOf, tableAt, List.getElem?_append_left hlt]
  exact hcell

/-- The first cell holds the global frame pointer in a program with classes. -/
theorem global_cell : (L.heap st)[0]? = some (Int64.ofNat L.size) := by
  rw [heap, heapOf, start_eq h]
  rfl

end

/-! ### Values -/

/-- A word is a value of a type.  No value has the type of a function or of a class. -/
def HasTy (L : Loaded) (st : Store) (w : Word) : Ty → Prop
  | .int => True
  | .bool => w = 0 ∨ w = 1
  | .null => w = Word.null
  | .ref cls => w = Word.null ∨ ∃ o, st.object? w = some o ∧ L.context.supers.isSubclass o.cls cls
  | _ => False

theorem HasTy.mono {w : Word} {t : Ty} (h : L.HasTy st w t) (hext : st.Extends st') :
    L.HasTy st' w t := by
  cases t with
  | ref cls =>
    refine Or.imp_right ?_ h
    rintro ⟨o, ho, hcls⟩
    exact ⟨o, hext.object?_eq ho, hcls⟩
  | _ => exact h

/-- A value of a type is one of every type above it. -/
theorem HasTy.subtype {w : Word} {t t' : Ty} (h : L.HasTy st w t)
    (hsub : L.context.supers.isSubtype t t') : L.HasTy st w t' := by
  rw [Hierarchy.isSubtype] at hsub
  cases t with
  | int =>
    cases t' with
    | int => trivial
    | _ => simp [Hierarchy.compare] at hsub
  | bool =>
    cases t' with
    | int => trivial
    | bool => exact h
    | _ => simp [Hierarchy.compare] at hsub
  | null =>
    cases t' with
    | null => exact h
    | ref cls => exact .inl h
    | _ => simp [Hierarchy.compare] at hsub
  | ref cls =>
    cases t' with
    | ref cls' =>
      refine Or.imp_right ?_ h
      rintro ⟨o, ho, hcls⟩
      exact ⟨o, ho, Hierarchy.isSubclass_trans hcls (by simpa [Hierarchy.compare] using hsub)⟩
    | _ => simp [Hierarchy.compare] at hsub
  | _ => exact h.elim

theorem HasTy.subtypes {ws : List Word} {ts ts' : List Ty} (h : List.Forall₂ (L.HasTy st) ws ts)
    (hsub : List.Forall₂ (fun t t' => L.context.supers.isSubtype t t') ts ts') :
    List.Forall₂ (L.HasTy st) ws ts' := by
  induction h generalizing ts' with
  | nil =>
    cases hsub
    exact .nil
  | cons hw _ ih =>
    cases hsub with
    | cons ht hsub => exact .cons (hw.subtype ht) (ih hsub)

/-! ### Stores -/

/-- The objects of a store lie where they should, their classes are known, and their fields have
values of their types. -/
structure StoreOK (L : Loaded) (st : Store) : Prop where
  sized : (L.heap st).length = st.next
  placed : ∀ (os : List (Nat × Object)) (p : Nat) (o : Object), os ++ [(p, o)] <+: st.objects →
    p = (L.heapOf os).length + o.fields.length
  typed : ∀ (p : Nat) (o : Object), (p, o) ∈ st.objects →
    ∃ info, L.context.classes.get? o.cls = some info ∧
      List.Forall₂ (L.HasTy st) o.fields info.fieldTypes

namespace StoreOK

variable {w : Word} {o : Object}

theorem mem_of_object? (ho : st.object? w = some o) :
    ∃ os p, os ++ [(p, o)] <+: st.objects ∧ Int64.ofNat p = w := by
  rw [Store.object?, Option.map_eq_some_iff] at ho
  obtain ⟨⟨p, o'⟩, hfind, rfl⟩ := ho
  obtain ⟨hp, os, more, hsplit, -⟩ := List.find?_eq_some_iff_append.mp hfind
  exact ⟨os, p, ⟨more, by rw [hsplit, append_assoc]; rfl⟩, by simpa using hp⟩

variable (h : L.StoreOK st)

include h

/-- The class of an object is known, and its fields have values of their types. -/
theorem object_typed (ho : st.object? w = some o) :
    ∃ info, L.context.classes.get? o.cls = some info ∧
      List.Forall₂ (L.HasTy st) o.fields info.fieldTypes := by
  obtain ⟨os, p, hpre, -⟩ := mem_of_object? ho
  exact h.typed p o (hpre.subset (by simp))

/-- The cells of an object: its fields from the last to the first, then the address of the dispatch
table of its class. -/
theorem object_cells (ho : st.object? w = some o) :
    ∃ p : Nat, w = Int64.ofNat p ∧ (L.heap st)[p]? = some (Int64.ofNat (L.tableAt o.cls)) ∧
      ∀ (i : Nat) (v : Word), o.fields[i]? = some v →
        ∃ b : Nat, (p : Int) + (-1 - i) = b ∧ (L.heap st)[b]? = some v := by
  obtain ⟨os, p, hpre, hw⟩ := mem_of_object? ho
  have hp := h.placed os p o hpre
  obtain ⟨more, hmore⟩ := heapOf_isPrefix (L := L) hpre
  have hcells : L.heap st = L.heapOf os ++ (o.fields.reverse ++
      (Int64.ofNat (L.tableAt o.cls) :: more)) := by
    rw [heap, ← hmore, heapOf_append]
    simp [cells]
  refine ⟨p, hw.symm, ?_, fun i v hi => ?_⟩
  · rw [hcells, hp, List.getElem?_append_right (Nat.le_add_right _ _), Nat.add_sub_cancel_left,
      List.getElem?_append_right (by simp)]
    simp
  · have hlt : i < o.fields.length := (List.getElem?_eq_some_iff.mp hi).1
    refine ⟨(L.heapOf os).length + (o.fields.length - 1 - i), by omega, ?_⟩
    rw [hcells, List.getElem?_append_right (Nat.le_add_right _ _), Nat.add_sub_cancel_left,
      List.getElem?_append_left (by simp; omega), List.getElem?_reverse (by omega),
      show o.fields.length - 1 - (o.fields.length - 1 - i) = i by omega, hi]

theorem print (w : Word) : L.StoreOK (st.print w) :=
  ⟨h.sized, h.placed, fun p o ho => h.typed p o ho⟩

theorem place_lt {p : Nat} (ho : (p, o) ∈ st.objects) : p < st.next := by
  obtain ⟨os, more, hsplit⟩ := append_of_mem ho
  have hpre : os ++ [(p, o)] <+: st.objects := ⟨more, by rw [hsplit, append_assoc]; rfl⟩
  have hle := (heapOf_isPrefix (L := L) hpre).length_le
  have hp := h.placed os p o hpre
  rw [heapOf_append, length_append] at hle
  have hsized := h.sized
  simp only [heap] at hsized
  simp only [flatMap_cons, flatMap_nil, append_nil, length_cells] at hle
  omega

/-- An object made now is found under its own number. -/
theorem object?_make (hlt : (st.make o).next ≤ Word.limit) :
    (st.make o).object? (Int64.ofNat (st.place o)) = some o := by
  have hnone : st.objects.find? (fun row => Int64.ofNat row.1 = Int64.ofNat (st.place o)) =
      none := by
    rw [List.find?_eq_none]
    rintro ⟨p, o'⟩ hmem heq
    have hp := h.place_lt hmem
    have hplace : st.next ≤ st.place o := Nat.le_add_right _ _
    have hnext : st.place o < Word.limit := hlt
    have hsame := Word.ofNat_inj (a := p) (by omega) hnext (by simpa using heq)
    omega
  rw [Store.object?, Store.make, List.find?_append, hnone]
  simp

/-- Making an object of values of the types of the fields. -/
theorem make {info : ClassInfo} (hinfo : L.context.classes.get? o.cls = some info)
    (hfields : List.Forall₂ (L.HasTy st) o.fields info.fieldTypes) : L.StoreOK (st.make o) := by
  have hext := st.extends_make o
  refine ⟨length_heap_of_extends hext h.sized, fun os p o' hpre => ?_, fun p o' ho => ?_⟩
  · rw [Store.make, prefix_concat_iff] at hpre
    cases hpre with
    | inl heq =>
      obtain ⟨rfl, hrow⟩ := append_inj' heq rfl
      simp only [List.cons.injEq, Prod.mk.injEq, and_true] at hrow
      obtain ⟨rfl, rfl⟩ := hrow
      rw [Store.place, ← h.sized, heap]
    | inr hpre => exact h.placed os p o' hpre
  · have hmono : ∀ {ws ts}, List.Forall₂ (L.HasTy st) ws ts →
        List.Forall₂ (L.HasTy (st.make o)) ws ts :=
      fun hf => hf.imp fun _ _ hw => hw.mono hext
    simp only [Store.make, mem_append, mem_singleton] at ho
    cases ho with
    | inl ho =>
      obtain ⟨info', hinfo', hf⟩ := h.typed p o' ho
      exact ⟨info', hinfo', hmono hf⟩
    | inr ho =>
      obtain rfl : o' = o := congrArg Prod.snd ho
      exact ⟨info, hinfo, hmono hfields⟩

end StoreOK

end Loaded

end Foolscap
