import Foolscap.Proofs.Assembly.Statements
import Mathlib.Data.List.Forall2
import Mathlib.Data.List.Induction
import Mathlib.Order.Bounds.Defs

/-!
# Layouts of assembly

What is laid out after some lines were taken in, and what is resolved from it.  A layout holds the
cells of the statements so far, and for each label the number of cells before it.
-/

namespace Foolscap

open List

namespace Assembler

/-- The cells of statements, with the numbers of their lines. -/
def numberedCells (ss : List Statement) : List (Nat × Operand) :=
  (ss.zipIdx 1).flatMap fun s => s.1.cells.map fun c => (s.2, c)

/-- The number of cells that statements fill. -/
def size (ss : List Statement) : Nat := (ss.flatMap Statement.cells).length

/-- No label is defined twice. -/
def Distinct (ss : List Statement) : Prop :=
  ∀ (i j : Nat) (name : Text), ss[i]? = some (.mark name) → ss[j]? = some (.mark name) → i = j

/-- A layout is that of some statements: their cells with the numbers of their lines, and their
labels, each with the number of cells before it. -/
structure Layout.Holds (l : Layout) (ss : List Statement) : Prop where
  cells : l.cells.toList = numberedCells ss
  labels : ∀ (i : Nat) name, ss[i]? = some (.mark name) →
    l.labels.get? name = some (size (ss.take i))
  known : ∀ name, l.labels.has name → Statement.mark name ∈ ss
  distinct : Distinct ss

theorem numberedCells_append (ss : List Statement) (s : Statement) :
    numberedCells (ss ++ [s]) = numberedCells ss ++ s.cells.map fun c => (ss.length + 1, c) := by
  rw [numberedCells, numberedCells, zipIdx_append, flatMap_append, Nat.add_comm]
  simp

theorem map_snd_numberedCells (ss : List Statement) :
    (numberedCells ss).map Prod.snd = ss.flatMap Statement.cells := by
  have hcells : ∀ s : Statement × Nat,
      (s.1.cells.map fun c => (s.2, c)).map Prod.snd = s.1.cells := by
    intro s
    rw [map_map]
    exact map_id _
  simp only [numberedCells, map_flatMap, hcells]
  rw [← flatMap_map Prod.fst Statement.cells, zipIdx_map_fst]

theorem mem_numberedCells {ss : List Statement} {n : Nat} {c : Operand} :
    (n, c) ∈ numberedCells ss ↔ ∃ i s, ss[i]? = some s ∧ n = i + 1 ∧ c ∈ s.cells := by
  simp only [numberedCells, mem_flatMap, mem_map, Prod.mk.injEq, Prod.exists,
    mem_zipIdx_iff_le_and_getElem?_sub]
  constructor
  · rintro ⟨s, i, ⟨hle, hs⟩, c, hc, rfl, rfl⟩
    exact ⟨i - 1, s, hs, by omega, hc⟩
  · rintro ⟨i, s, hs, rfl, hc⟩
    exact ⟨s, i + 1, ⟨by omega, hs⟩, c, hc, rfl, rfl⟩

/-- Cells stand in the order of their lines. -/
theorem pairwise_numberedCells (ss : List Statement) :
    (numberedCells ss).Pairwise fun a b => a.1 ≤ b.1 := by
  induction ss using List.reverseRecOn with
  | nil => exact .nil
  | append_singleton ss s ih =>
    rw [numberedCells_append, pairwise_append]
    refine ⟨ih, pairwise_map.mpr (pairwise_of_forall fun _ _ => Nat.le_refl _), ?_⟩
    rintro ⟨n, c⟩ hleft b hright
    obtain ⟨i, s', hs', rfl, -⟩ := mem_numberedCells.mp hleft
    obtain ⟨c', -, rfl⟩ := mem_map.mp hright
    have hi := (List.getElem?_eq_some_iff.mp hs').1
    exact Nat.succ_le_succ (Nat.le_of_lt hi)

namespace Layout.Holds

variable {l l' : Layout} {ss : List Statement}

theorem empty : ({} : Layout).Holds [] where
  cells := rfl
  labels := nofun
  known := nofun
  distinct := nofun

theorem size_cells (h : l.Holds ss) : l.cells.size = size ss := by
  rw [← Array.length_toList, h.cells, size, ← map_snd_numberedCells, length_map]

theorem get?_eq_none (h : l.Holds ss) {name : Text} :
    l.labels.get? name = none ↔ Statement.mark name ∉ ss := by
  constructor
  · intro hnone hmem
    obtain ⟨i, hi⟩ := List.getElem?_of_mem hmem
    rw [h.labels i name hi] at hnone
    cases hnone
  · intro hnot
    by_contra hsome
    exact hnot (h.known name (Option.isSome_iff_ne_none.mpr hsome))

/-- One more statement. -/
theorem concat (h : l.Holds ss) {s : Statement} (hnew : ∀ name, s = .mark name → s ∉ ss)
    (hcells : l'.cells = l.cells ++ (s.cells.map fun c => (ss.length + 1, c)).toArray)
    (hlabels : ∀ name, l'.labels.get? name =
      if s = .mark name then some l.cells.size else l.labels.get? name) : l'.Holds (ss ++ [s]) := by
  -- A label of the longer list is an old one or that of the last line, never both.
  have hmark : ∀ {i : Nat} {name}, (ss ++ [s])[i]? = some (.mark name) →
      ss[i]? = some (.mark name) ∧ s ≠ .mark name ∧ i < ss.length ∨
        i = ss.length ∧ s = .mark name := by
    intro i name hi
    rcases Nat.lt_or_ge i ss.length with hlt | hge
    · rw [List.getElem?_append_left hlt] at hi
      refine .inl ⟨hi, ?_, hlt⟩
      rintro rfl
      exact hnew name rfl (mem_of_getElem? hi)
    · rw [List.getElem?_append_right hge, List.getElem?_singleton] at hi
      split at hi
      · exact .inr ⟨by omega, Option.some.inj hi⟩
      · cases hi
  constructor
  · rw [hcells, numberedCells_append, ← h.cells]
    simp
  · intro i name hi
    rcases hmark hi with ⟨hold, hne, hlt⟩ | ⟨rfl, rfl⟩
    · rw [hlabels, if_neg hne, h.labels i name hold, take_append_of_le_length (Nat.le_of_lt hlt)]
    · rw [hlabels, if_pos rfl, h.size_cells, take_left]
  · intro name hname
    rw [Table.has, hlabels] at hname
    split at hname
    · next hs => simp [hs]
    · exact mem_append_left _ (h.known name hname)
  · intro i j name hi hj
    rcases hmark hi with ⟨hi, hne, -⟩ | ⟨hi, hs⟩ <;> rcases hmark hj with ⟨hj, hne', -⟩ | ⟨hj, hs'⟩
    · exact h.distinct i j name hi hj
    · exact absurd hs' hne
    · exact absurd hs hne'
    · exact hi.trans hj.symm

/-- Taking in a statement fails for a label that is already there, and only for that. -/
theorem add (h : l.Holds ss) (s : Statement) :
    (∃ name, s = .mark name ∧ s ∈ ss ∧
        l.add (ss.length + 1) s = .error ⟨ss.length + 1, .labelTaken name⟩) ∨
      ∃ l', l.add (ss.length + 1) s = .ok l' ∧ l'.Holds (ss ++ [s]) := by
  by_cases hs : ∃ name, s = .mark name
  · obtain ⟨name, rfl⟩ := hs
    by_cases hhas : l.labels.has name
    · exact .inl ⟨name, rfl, h.known name hhas, if_pos hhas⟩
    · refine .inr ⟨_, if_neg hhas, h.concat ?_ ?_ ?_⟩
      · rintro name' - hmem
        exact hhas (Option.isSome_iff_ne_none.mpr fun hnone => h.get?_eq_none.mp hnone hmem)
      · simp [Statement.cells]
      · intro name'
        by_cases hne : name' = name
        · subst hne
          simp
        · rw [if_neg (by simpa using Ne.symm hne)]
          exact Table.get?_put_of_ne _ _ hne
  · have hadd : l.add (ss.length + 1) s = .ok { l with
        cells := l.cells ++ (s.cells.map fun c => (ss.length + 1, c)).toArray } := by
      cases s with
      | mark name => exact absurd ⟨name, rfl⟩ hs
      | _ => rfl
    refine .inr ⟨_, hadd, h.concat (fun name hname => absurd ⟨name, hname⟩ hs) rfl fun name => ?_⟩
    exact (if_neg fun hname => hs ⟨name, hname⟩).symm

/-- Laying out lines succeeds if each line says something and no label is defined twice.  Otherwise
it stops at the first line that says nothing, or only a label that is already there. -/
theorem layout (h : l.Holds ss) (ls : List Text) :
    (∃ l' ss', Assembler.layout l (ss.length + 1) ls = .ok l' ∧
        List.Forall₂ Statement.Says ls ss' ∧ l'.Holds (ss ++ ss')) ∨
      ∃ e before raw after ss', Assembler.layout l (ss.length + 1) ls = .error e ∧
        ls = before ++ raw :: after ∧ e.line = (ss ++ ss').length + 1 ∧
        List.Forall₂ Statement.Says before ss' ∧ Distinct (ss ++ ss') ∧
        ∀ s, Statement.Says raw s → (∃ name, s = .mark name) ∧ s ∈ ss ++ ss' := by
  induction ls generalizing l ss with
  | nil => exact .inl ⟨l, [], rfl, .nil, by rwa [append_nil]⟩
  | cons raw ls ih =>
    rw [Assembler.layout]
    cases hread : Statement.read raw with
    | error fault =>
      refine .inr ⟨_, [], raw, ls, [], rfl, rfl, by simp, .nil, by simpa using h.distinct, ?_⟩
      intro s hs
      rw [Statement.read_eq_ok_iff.mpr hs] at hread
      cases hread
    | ok s =>
      have hsays := Statement.read_eq_ok_iff.mp hread
      rcases h.add s with ⟨name, hname, hmem, hadd⟩ | ⟨l₁, hadd, h₁⟩
      · simp only [hadd]
        refine .inr ⟨_, [], raw, ls, [], rfl, rfl, by simp, .nil, by simpa using h.distinct, ?_⟩
        intro s' hs'
        obtain rfl := hsays.unique hs'
        exact ⟨⟨name, hname⟩, by simpa using hmem⟩
      · have ih := ih h₁
        rw [length_append, length_singleton] at ih
        simp only [hadd]
        rcases ih with ⟨l', ss', hlay, hall, hl'⟩ |
          ⟨e, before, raw', after, ss', hlay, rfl, hline, hall, hdist, hno⟩
        · exact .inl ⟨l', s :: ss', hlay, .cons hsays hall, by simpa using hl'⟩
        · refine .inr ⟨e, raw :: before, raw', after, s :: ss', hlay, rfl, by simpa using hline,
            .cons hsays hall, by simpa using hdist, by simpa using hno⟩

end Layout.Holds

/-! ### Resolving labels -/

/-- Cells are resolved, or resolving stops at the first label without an address. -/
theorem resolve_cases (labels : Table Nat) {cells : List (Nat × Operand)}
    (hsorted : cells.Pairwise fun a b => a.1 ≤ b.1) :
    (∀ name, .label name ∈ cells.map Prod.snd → (labels.get? name).isSome) ∨
      ∃ e, cells.mapM (resolve labels) = .error e ∧
        IsLeast {n | ∃ name, (n, .label name) ∈ cells ∧ labels.get? name = none} e.line := by
  induction cells with
  | nil => exact .inl (by simp)
  | cons c cells ih =>
    obtain ⟨hfirst, hsorted⟩ := pairwise_cons.mp hsorted
    by_cases hc : ∃ name, c.2 = .label name ∧ labels.get? name = none
    · obtain ⟨n, c⟩ := c
      obtain ⟨name, rfl, hnone⟩ := hc
      refine .inr ⟨⟨n, .undefinedLabel name⟩, ?_, ⟨name, by simp, hnone⟩, ?_⟩
      · simp only [mapM_cons, resolve, hnone]
        rfl
      · rintro m ⟨name', hmem, -⟩
        rcases mem_cons.mp hmem with heq | hmem
        · exact Nat.le_of_eq (Prod.mk.inj heq).1.symm
        · exact hfirst _ hmem
    · have hok : ∃ w, resolve labels c = .ok w := by
        obtain ⟨n, c⟩ := c
        cases c with
        | number w => exact ⟨w, rfl⟩
        | label name =>
          obtain ⟨a, ha⟩ := Option.ne_none_iff_exists'.mp fun hnone => hc ⟨name, rfl, hnone⟩
          exact ⟨Int64.ofNat a, by simp only [resolve, ha]⟩
      obtain ⟨w, hok⟩ := hok
      rcases ih hsorted with hall | ⟨e, herr, ⟨name, hmem, hnone⟩, hleast⟩
      · refine .inl fun name hname => ?_
        rcases mem_cons.mp hname with heq | hmem
        · exact Option.isSome_iff_ne_none.mpr fun hnone => hc ⟨name, heq.symm, hnone⟩
        · exact hall name hmem
      · refine .inr ⟨e, ?_, ⟨name, mem_cons_of_mem _ hmem, hnone⟩, ?_⟩
        · rw [mapM_cons, hok, herr]
          rfl
        · rintro m ⟨name', hmem', hnone'⟩
          rcases mem_cons.mp hmem' with rfl | hmem'
          · exact absurd ⟨name', rfl, hnone'⟩ hc
          · exact hleast ⟨name', hmem', hnone'⟩

end Assembler

end Foolscap
