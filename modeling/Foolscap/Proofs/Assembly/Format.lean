import Foolscap.Proofs.Assembly.Assembled
import Foolscap.Proofs.Assembly.LaidOut

/-!
# The format of assembly

Which texts are assembled, to what, and which line is to blame if a text is not.

## Design Notes

The format and the code are said line by line and in terms of the text alone.  The address of a
label is the number of cells of the lines before its line, so it does not matter whether a label is
used before or after its definition.  What is laid out in one pass is tied to that by the
statements that the lines make.
-/

namespace Foolscap

open List Statement

namespace Assembler

/-! ### Labels of lines -/

/-- A label is defined on a line of some kind. -/
def DefinedOn (ls : List Text) (P : Nat → Prop) (name : Text) : Prop :=
  ∃ i raw, P i ∧ ls[i]? = some raw ∧ Defines raw name

section

variable {ls : List Text} {ss : List Statement}

variable {i : Nat} (h : List.Forall₂ Statement.Says ls ss)

include h

theorem says_of_line {raw : Text} (hi : ls[i]? = some raw) :
    ∃ s, ss[i]? = some s ∧ Statement.Says raw s := by
  obtain ⟨hlt, rfl⟩ := List.getElem?_eq_some_iff.mp hi
  have hlt' : i < ss.length := h.length_eq ▸ hlt
  exact ⟨ss[i], List.getElem?_eq_getElem hlt', h.get hlt hlt'⟩

theorem line_of_says {s : Statement} (hi : ss[i]? = some s) :
    ∃ raw, ls[i]? = some raw ∧ Statement.Says raw s := by
  obtain ⟨hlt, rfl⟩ := List.getElem?_eq_some_iff.mp hi
  have hlt' : i < ls.length := h.length_eq ▸ hlt
  exact ⟨ls[i], List.getElem?_eq_getElem hlt', h.get hlt' hlt⟩

/-- The lines that define labels are those that say so. -/
theorem defines_iff {name : Text} :
    (∃ raw, ls[i]? = some raw ∧ Defines raw name) ↔ ss[i]? = some (.mark name) := by
  constructor
  · rintro ⟨raw, hraw, hdef⟩
    obtain ⟨s, hs, hsays⟩ := says_of_line h hraw
    rw [hs, hsays.unique (.mark hdef)]
  · intro hi
    obtain ⟨raw, hraw, hsays⟩ := line_of_says h hi
    cases hsays with
    | mark hdef => exact ⟨raw, hraw, hdef⟩

theorem definedOn_iff {P : Nat → Prop} {name : Text} :
    DefinedOn ls P name ↔ ∃ i, P i ∧ ss[i]? = some (.mark name) := by
  simp only [DefinedOn, ← defines_iff h, exists_and_left]

end

/-! ### Lines in the format -/

/-- A line is in the format, where `instructs` says which lines are instructions, some labels are
taken and some are known. -/
inductive Admitted (instructs : Text → Opcode → List Text → Prop) (taken known : Text → Prop)
    (raw : Text) : Prop where
  | blank (h : raw.trim = [])
  | label {name : Text} (h : Defines raw name) (hnew : ¬ taken name)
  | bare {o : Opcode} (h : instructs raw o []) (ho : o ∉ operandTakers)
  | number {arg : Text} (h : instructs raw .push [arg]) (harg : (Text.toWord? arg).isSome)
  | target {o : Opcode} {arg : Text} (h : instructs raw o [arg]) (ho : o ∈ operandTakers)
      (harg : Text.toWord? arg = none) (hknown : known arg)

/-- What the format says of a line in terms of its text, in terms of the statement that the line
makes. -/
theorem admitted_iff {taken known : Text → Prop} {raw : Text} :
    Admitted Instructs taken known raw ↔ ∃ s, Statement.Says raw s ∧
      (∀ name, s = .mark name → ¬ taken name) ∧ ∀ name, .label name ∈ s.cells → known name := by
  constructor
  · rintro (hnil | ⟨hdef, hnew⟩ | ⟨hi, ho⟩ | ⟨hi, harg⟩ | ⟨hi, ho, harg, hknown⟩)
    · exact ⟨_, .blank hnil, by rintro _ ⟨⟩, by simp [cells]⟩
    · refine ⟨_, .mark hdef, fun name hname => ?_, by simp [cells]⟩
      cases hname
      exact hnew
    · exact ⟨_, .plain hi ho, by rintro _ ⟨⟩, by simp [cells]⟩
    · obtain ⟨w, hw⟩ := Option.isSome_iff_exists.mp harg
      exact ⟨_, .number hi hw, by rintro _ ⟨⟩, by simp [cells]⟩
    · exact ⟨_, .label hi ho harg, by rintro _ ⟨⟩, by simpa [cells] using hknown⟩
  · rintro ⟨s, hsays, hnew, hknown⟩
    cases hsays with
    | blank hnil => exact .blank hnil
    | mark hdef => exact .label hdef (hnew _ rfl)
    | plain hi ho => exact .bare hi ho
    | number hi hw => exact .number hi (by rw [hw]; rfl)
    | label hi ho hname => exact .target hi ho hname (hknown _ (by simp [cells]))

/-- A line is wrong by itself or repeats a label of an earlier line. -/
def Malformed (ls : List Text) (i : Nat) : Prop :=
  ∃ raw, ls[i]? = some raw ∧ ¬ Admitted Instructs (DefinedOn ls (· < i)) (fun _ => True) raw

/-- The operand of a line is a label that no line defines. -/
def Dangling (ls : List Text) (i : Nat) : Prop :=
  ∃ raw o name, ls[i]? = some raw ∧ Instructs raw o [name] ∧ o ∈ operandTakers ∧
    Text.toWord? name = none ∧ ¬ DefinedOn ls (fun _ => True) name

variable {ss : List Statement} {ls : List Text}

/-- Lines that say something and define different labels are well-formed. -/
theorem not_malformed {before after : List Text} (h : List.Forall₂ Statement.Says before ss)
    (hd : Distinct ss) {i : Nat} (hi : i < before.length) : ¬ Malformed (before ++ after) i := by
  rintro ⟨raw, hraw, hnot⟩
  rw [List.getElem?_append_left hi] at hraw
  obtain ⟨s, hs, hsays⟩ := says_of_line h hraw
  refine hnot (admitted_iff.mpr ⟨s, hsays, ?_, fun _ _ => trivial⟩)
  rintro name rfl ⟨j, raw', hj, hraw', hdef⟩
  rw [List.getElem?_append_left (Nat.lt_trans hj hi)] at hraw'
  have hmark := (defines_iff h).mp ⟨raw', hraw', hdef⟩
  exact absurd (hd j i name hmark hs) (Nat.ne_of_lt hj)

/-- A line that says nothing, or only a label of an earlier line, is malformed. -/
theorem malformed {before after : List Text} {raw : Text}
    (h : List.Forall₂ Statement.Says before ss)
    (hno : ∀ s, Statement.Says raw s → (∃ name, s = .mark name) ∧ s ∈ ss) :
    Malformed (before ++ raw :: after) before.length := by
  refine ⟨raw, by simp, fun hadm => ?_⟩
  obtain ⟨s, hsays, hnew, -⟩ := admitted_iff.mp hadm
  obtain ⟨⟨name, rfl⟩, hmem⟩ := hno s hsays
  obtain ⟨j, hj⟩ := List.getElem?_of_mem hmem
  obtain ⟨raw', hraw', hdef⟩ := (defines_iff h).mpr hj
  have hlt := (List.getElem?_eq_some_iff.mp hraw').1
  exact hnew name rfl ⟨j, raw', hlt, by rwa [List.getElem?_append_left hlt], hdef⟩

/-- A line has an undefined label if its statement uses a label that no statement marks. -/
theorem dangling_iff (h : List.Forall₂ Statement.Says ls ss) {i : Nat} :
    Dangling ls i ↔ ∃ s name, ss[i]? = some s ∧ .label name ∈ s.cells ∧ mark name ∉ ss := by
  have hdef : ∀ name, DefinedOn ls (fun _ => True) name ↔ mark name ∈ ss := by
    intro name
    rw [definedOn_iff h, mem_iff_getElem?]
    simp
  constructor
  · rintro ⟨raw, o, name, hraw, hi, ho, hname, hno⟩
    obtain ⟨s, hs, hsays⟩ := says_of_line h hraw
    obtain rfl := hsays.unique (.label hi ho hname)
    exact ⟨_, name, hs, by simp [cells], fun hmem => hno ((hdef name).mpr hmem)⟩
  · rintro ⟨s, name, hs, hcell, hno⟩
    obtain ⟨raw, hraw, hsays⟩ := line_of_says h hs
    cases hsays with
    | label hi ho hname =>
      obtain rfl : _ = name := by simpa [cells, eq_comm] using hcell
      exact ⟨raw, _, _, hraw, hi, ho, hname, fun hd => hno ((hdef _).mp hd)⟩
    | _ => simp [cells] at hcell

/-! ### The code of lines -/

/-- The address of a label: the number of cells of the lines before the one that defines it. -/
def AddressOf (ls : List Text) (blocks : List (List Word)) (name : Text) (a : Nat) : Prop :=
  ∃ i raw, ls[i]? = some raw ∧ Defines raw name ∧ a = (blocks.take i).flatten.length

/-- The cells of a line, where labels have addresses. -/
inductive Emits (addressOf : Text → Nat → Prop) (raw : Text) : List Word → Prop where
  | blank (h : raw.trim = []) : Emits addressOf raw []
  | label {name : Text} (h : Defines raw name) : Emits addressOf raw []
  | bare {o : Opcode} (h : Instructs raw o []) (ho : o ∉ operandTakers) :
      Emits addressOf raw [Int64.ofNat o.code]
  | number {arg : Text} {w : Word} (h : Instructs raw .push [arg])
      (harg : Text.toWord? arg = some w) : Emits addressOf raw [Int64.ofNat Opcode.push.code, w]
  | target {o : Opcode} {arg : Text} {a : Nat} (h : Instructs raw o [arg])
      (ho : o ∈ operandTakers) (harg : Text.toWord? arg = none) (ha : addressOf arg a) :
      Emits addressOf raw [Int64.ofNat o.code, Int64.ofNat a]

/-- A program is the code of lines, whose cells are given line by line. -/
structure CodeOf (ls : List Text) (blocks : List (List Word)) (p : Executable) : Prop where
  emits : List.Forall₂ (Emits (AddressOf ls blocks)) ls blocks
  code : p.code.toList = blocks.flatten
  sourceMap : p.sourceMap.toList =
    (blocks.zipIdx 1).flatMap fun b => List.replicate b.1.length (b.2 : Int)
  lines : p.lines = ls
  labels : ∀ name a, p.labels.get? name = some a ↔ AddressOf ls blocks name a

/-- Every cell has a line. -/
theorem CodeOf.size_sourceMap {blocks : List (List Word)} {p : Executable}
    (h : CodeOf ls blocks p) : p.sourceMap.size = p.code.size := by
  rw [← Array.length_toList, ← Array.length_toList, h.sourceMap, h.code, length_flatMap,
    length_flatten]
  have hlen : ∀ b : List Word × Nat, (List.replicate b.1.length (b.2 : Int)).length = b.1.length :=
    fun b => length_replicate
  simp only [hlen]
  have hfst := congrArg (List.map List.length) (zipIdx_map_fst 1 blocks)
  rw [map_map] at hfst
  exact congrArg List.sum hfst

section

variable {ls : List Text} {ss : List Statement} {l : Layout}

/-- The cells of statements, once labels have addresses. -/
def resolved (labels : Table Nat) (ss : List Statement) : List (List Word) :=
  ss.map fun s => s.cells.map (Line.value labels)

theorem length_flatten_resolved (labels : Table Nat) (ss : List Statement) (i : Nat) :
    ((resolved labels ss).take i).flatten.length = size (ss.take i) := by
  rw [resolved, ← map_take, ← flatMap_def, size, length_flatMap, length_flatMap]
  simp

/-- Labels have the addresses that a layout gives them. -/
theorem addressOf_iff (hl : l.Holds ss) (h : List.Forall₂ Statement.Says ls ss) {name : Text}
    {a : Nat} : AddressOf ls (resolved l.labels ss) name a ↔ l.labels.get? name = some a := by
  have haddr : AddressOf ls (resolved l.labels ss) name a ↔
      ∃ i, ss[i]? = some (.mark name) ∧ a = size (ss.take i) := by
    simp only [AddressOf, length_flatten_resolved, ← defines_iff h, ← exists_and_right, and_assoc]
  rw [haddr]
  constructor
  · rintro ⟨i, hi, rfl⟩
    exact hl.labels i name hi
  · intro hget
    have hhas : l.labels.has name := by rw [Table.has, hget]; rfl
    obtain ⟨i, hi⟩ := List.getElem?_of_mem (hl.known name hhas)
    exact ⟨i, hi, Option.some.inj (hget.symm.trans (hl.labels i name hi))⟩

/-- The cells of a line are those of its statement, with its labels replaced by their addresses. -/
theorem emits_of_says {labels : Table Nat} {addressOf : Text → Nat → Prop}
    (haddr : ∀ name a, labels.get? name = some a → addressOf name a) {raw : Text} {s : Statement}
    (h : Statement.Says raw s)
    (hknown : ∀ name, .label name ∈ s.cells → (labels.get? name).isSome) :
    Emits addressOf raw (s.cells.map (Line.value labels)) := by
  cases h with
  | blank hnil => exact .blank hnil
  | mark hdef => exact .label hdef
  | plain hi ho => exact .bare hi ho
  | number hi hw => exact .number hi hw
  | @label o name hi ho hname =>
    obtain ⟨a, ha⟩ := Option.isSome_iff_exists.mp (hknown name (by simp [cells]))
    have hemits : Emits addressOf raw [_, Int64.ofNat a] := .target hi ho hname (haddr _ a ha)
    simpa [cells, Line.value, ha] using hemits

theorem sourceMap_resolved (labels : Table Nat) (ss : List Statement) :
    ((numberedCells ss).map fun c => (c.1 : Int)) =
      ((resolved labels ss).zipIdx 1).flatMap fun b => List.replicate b.1.length (b.2 : Int) := by
  rw [numberedCells, map_flatMap, resolved, zipIdx_map, flatMap_map]
  congr 1
  funext s
  simp [Function.comp_def, map_const']

/-- A layout whose labels all have addresses is resolved to the code of its lines. -/
theorem codeOf_holds (hl : l.Holds ss) (h : List.Forall₂ Statement.Says ls ss)
    (hknown : ∀ name, .label name ∈ ss.flatMap cells → (l.labels.get? name).isSome) :
    CodeOf ls (resolved l.labels ss)
      ⟨((ss.flatMap cells).map (Line.value l.labels)).toArray,
        ((numberedCells ss).map fun c => (c.1 : Int)).toArray, ls, l.labels⟩ where
  emits := by
    refine forall₂_map_right_iff.mpr (forall₂_iff_get.mpr ⟨h.length_eq, ?_⟩)
    intro i h₁ h₂
    refine emits_of_says (fun name a => (addressOf_iff hl h).mpr) (h.get h₁ h₂) fun name hname => ?_
    exact hknown name (mem_flatMap.mpr ⟨_, get_mem ss _, hname⟩)
  code := by rw [resolved, ← flatMap_def, map_flatMap]
  sourceMap := sourceMap_resolved l.labels ss
  lines := rfl
  labels _ _ := (addressOf_iff hl h).symm

end

/-- Lines are in the format, where `instructs` says which lines are instructions: no label is
defined on two lines, and every label that is used is defined. -/
def InFormat (instructs : Text → Opcode → List Text → Prop) (ls : List Text) : Prop :=
  ∀ i raw, ls[i]? = some raw →
    Admitted instructs (DefinedOn ls (· ≠ i)) (DefinedOn ls fun _ => True) raw

/-- Lines whose statements mark no label twice and use only marked ones are in the format. -/
theorem inFormat_of_says (h : List.Forall₂ Statement.Says ls ss) (hd : Distinct ss)
    (hno : ∀ i, ¬ Dangling ls i) : InFormat Instructs ls := by
  intro i raw hraw
  obtain ⟨s, hs, hsays⟩ := says_of_line h hraw
  refine admitted_iff.mpr ⟨s, hsays, ?_, ?_⟩
  · rintro name rfl htaken
    obtain ⟨j, hne, hj⟩ := (definedOn_iff h).mp htaken
    exact hne (hd j i name hj hs)
  · intro name hname
    have hmem : mark name ∈ ss := by
      by_contra hmem
      exact hno i ((dangling_iff h).mpr ⟨s, name, hs, hname, hmem⟩)
    obtain ⟨j, hj⟩ := List.getElem?_of_mem hmem
    exact (definedOn_iff h).mpr ⟨j, trivial, hj⟩

theorem InFormat.not_malformed (h : InFormat Instructs ls) (i : Nat) : ¬ Malformed ls i := by
  rintro ⟨raw, hraw, hnot⟩
  obtain ⟨s, hsays, hnew, -⟩ := admitted_iff.mp (h i raw hraw)
  refine hnot (admitted_iff.mpr ⟨s, hsays, ?_, fun _ _ => trivial⟩)
  rintro name hname ⟨j, raw', hlt, hrest⟩
  exact hnew name hname ⟨j, raw', Nat.ne_of_lt hlt, hrest⟩

theorem InFormat.not_dangling (h : InFormat Instructs ls) (i : Nat) : ¬ Dangling ls i := by
  rintro ⟨raw, o, name, hraw, hi, ho, hname, hno⟩
  obtain ⟨s, hsays, -, hknown⟩ := admitted_iff.mp (h i raw hraw)
  obtain rfl := hsays.unique (.label hi ho hname)
  exact hno (hknown name (by simp [cells]))

/-- The line that is to blame: the first malformed one, or else the first with an undefined
label. -/
def IsBlamed (ls : List Text) (i : Nat) : Prop :=
  IsLeast {j | Malformed ls j} i ∨ (∀ j, ¬ Malformed ls j) ∧ IsLeast {j | Dangling ls j} i

end Assembler

open Assembler

namespace Executable

variable {ls : List Text} {ss : List Statement} {l : Layout}

theorem ofLines_of_error {e : AssemblyError} (hlay : layout {} 1 ls = .error e) :
    ofLines ls = .error e := by
  rw [ofLines, hlay]
  rfl

/-- Lines that are laid out are resolved cell by cell. -/
theorem ofLines_of_ok (hlay : layout {} 1 ls = .ok l) :
    ofLines ls = (l.cells.toList.mapM (resolve l.labels)).map fun code =>
      ⟨code.toArray, (l.cells.toList.map fun c => (c.1 : Int)).toArray, ls, l.labels⟩ := by
  have hmap : l.cells.map (fun c => (c.1 : Int)) =
      (l.cells.toList.map fun c => (c.1 : Int)).toArray := by
    rw [← Array.toList_map, Array.toArray_toList]
  rw [ofLines, hlay]
  simp only [bind, Except.bind, Array.mapM_eq_mapM_toList, hmap]
  cases l.cells.toList.mapM (resolve l.labels) <;> rfl

/-- Lines that are laid out are assembled to their code, unless one of them has an undefined
label. -/
theorem ofLines_of_layout (hlay : layout {} 1 ls = .ok l) (hl : l.Holds ss)
    (h : List.Forall₂ Statement.Says ls ss) :
    (∃ p blocks, ofLines ls = .ok p ∧ (∀ i, ¬ Dangling ls i) ∧ CodeOf ls blocks p) ∨
      ∃ e i, ofLines ls = .error e ∧ e.line = i + 1 ∧ IsLeast {j | Dangling ls j} i := by
  have hdangling : ∀ i, Dangling ls i ↔
      ∃ name, (i + 1, .label name) ∈ numberedCells ss ∧ l.labels.get? name = none := by
    intro i
    simp only [dangling_iff h, mem_numberedCells, hl.get?_eq_none]
    constructor
    · rintro ⟨s, name, hs, hname, hnot⟩
      exact ⟨name, ⟨i, s, hs, rfl, hname⟩, hnot⟩
    · rintro ⟨name, ⟨i', s, hs, heq, hname⟩, hnot⟩
      obtain rfl := Nat.succ.inj heq
      exact ⟨s, name, hs, hname, hnot⟩
  have hcode := ofLines_of_ok hlay
  rw [hl.cells] at hcode
  rcases resolve_cases l.labels (pairwise_numberedCells ss) with
    hknown | ⟨e, herr, ⟨name, hname⟩, hleast⟩
  · left
    rw [Line.mapM_resolve hknown, map_snd_numberedCells] at hcode
    refine ⟨_, _, hcode, fun i hi => ?_, codeOf_holds hl h ?_⟩
    · obtain ⟨name, hmem, hnone⟩ := (hdangling i).mp hi
      have hsome := hknown name (mem_map.mpr ⟨_, hmem, rfl⟩)
      rw [hnone] at hsome
      cases hsome
    · rwa [← map_snd_numberedCells]
  · right
    obtain ⟨i, -, -, hline, -⟩ := mem_numberedCells.mp hname.1
    rw [herr] at hcode
    rw [hline] at hname hleast
    refine ⟨e, i, hcode, hline, (hdangling i).mpr ⟨name, hname⟩, fun j hj => ?_⟩
    exact Nat.le_of_succ_le_succ (hleast ((hdangling j).mp hj))

/-- Lines are assembled to their code, or one of them is to blame. -/
theorem ofLines_cases (ls : List Text) :
    (∃ p blocks, ofLines ls = .ok p ∧ InFormat Instructs ls ∧ CodeOf ls blocks p) ∨
      ∃ e i, ofLines ls = .error e ∧ e.line = i + 1 ∧ IsBlamed ls i := by
  rcases Layout.Holds.empty.layout ls with ⟨l, ss, hlay, hall, hl⟩ |
    ⟨e, before, raw, after, ss, hlay, rfl, hline, hall, hdist, hno⟩
  · rw [nil_append] at hl
    rcases ofLines_of_layout hlay hl hall with
      ⟨p, blocks, hp, hno, hcode⟩ | ⟨e, i, he, hline, hleast⟩
    · exact .inl ⟨p, blocks, hp, inFormat_of_says hall hl.distinct hno, hcode⟩
    · refine .inr ⟨e, i, he, hline, .inr ⟨fun j hj => ?_, hleast⟩⟩
      have hlt : j < ls.length := by
        obtain ⟨raw, hraw, -⟩ := hj
        exact (List.getElem?_eq_some_iff.mp hraw).1
      rw [← append_nil ls] at hj
      exact not_malformed hall hl.distinct hlt hj
  · refine .inr ⟨e, before.length, ofLines_of_error hlay, ?_, .inl ⟨malformed hall hno, ?_⟩⟩
    · rw [hline, nil_append, hall.length_eq]
    · intro j hj
      by_contra hlt
      exact not_malformed hall hdist (Nat.lt_of_not_le hlt) hj

theorem not_inFormat_of_isBlamed {i : Nat} (h : IsBlamed ls i) : ¬ InFormat Instructs ls := by
  intro hin
  rcases h with ⟨hbad, -⟩ | ⟨-, hbad, -⟩
  · exact hin.not_malformed i hbad
  · exact hin.not_dangling i hbad

/-- A text is assembled if its lines are in the format, and only then.  It becomes the code of its
lines.  The error for any other text names the first malformed line or, if there is none, the first
line with an undefined label. -/
theorem assembles_exactly (t : Text) :
    ((∃ p, assemble t = .ok p) ↔ InFormat Instructs (split t)) ∧
      (∀ p, assemble t = .ok p →
        p.sourceMap.size = p.code.size ∧ ∃ blocks, CodeOf (split t) blocks p) ∧
      ∀ e, assemble t = .error e → ∃ i, e.line = i + 1 ∧ IsBlamed (split t) i := by
  unfold assemble
  rcases ofLines_cases (split t) with ⟨p, blocks, hp, hin, hcode⟩ | ⟨e, i, he, hline, hblamed⟩
  · refine ⟨iff_of_true ⟨p, hp⟩ hin, fun p' hp' => ?_, fun e he => ?_⟩
    · obtain rfl := Except.ok.inj (hp.symm.trans hp')
      exact ⟨hcode.size_sourceMap, blocks, hcode⟩
    · rw [hp] at he
      cases he
  · refine ⟨iff_of_false ?_ (not_inFormat_of_isBlamed hblamed), fun p hp => ?_, fun e' he' => ?_⟩
    · rintro ⟨p, hp⟩
      rw [he] at hp
      cases hp
    · rw [he] at hp
      cases hp
    · obtain rfl := Except.error.inj (he.symm.trans he')
      exact ⟨i, hline, hblamed⟩

/-- Labels before and after their uses, named like a number and like an instruction, and one at the
end.  A label that is defined again is the fault of the later line. -/
theorem assembles_exactly_labels :
    InFormat Instructs (split "push push\n\n 1:\npush 1\npush:\n\tb end \nend:") ∧
      (∃ blocks, CodeOf (split "push push\n\n 1:\npush 1\npush:\n\tb end \nend:") blocks
        ⟨#[1, 4, 1, 1, 32, 6], #[1, 1, 4, 4, 6, 6],
          ["push push", "", " 1:", "push 1", "push:", "\tb end ", "end:"],
          [("1", 2), ("push", 4), ("end", 6)]⟩) ∧
      ∃ i, 3 = i + 1 ∧ IsBlamed (split "a:\npush 1\na:\n") i := by
  have hok := @ofLines_of_ok (split "push push\n\n 1:\npush 1\npush:\n\tb end \nend:")
    ⟨#[(1, .number 1), (1, .label "push"), (4, .number 1), (4, .number 1), (6, .number 32),
      (6, .label "end")], [("1", 2), ("push", 4), ("end", 6)]⟩ rfl
  obtain ⟨hin, hcode, -⟩ := assembles_exactly "push push\n\n 1:\npush 1\npush:\n\tb end \nend:"
  obtain ⟨-, -, hfault⟩ := assembles_exactly "a:\npush 1\na:\n"
  exact ⟨hin.mp ⟨_, hok⟩, (hcode _ hok).2, hfault ⟨3, .labelTaken "a"⟩ rfl⟩

/-- If a line that ends in a colon could be an instruction, the format would allow more than is
assembled. -/
theorem colon_ends_label_line :
    ¬ ((∃ p, assemble "a::\npush a:\n" = .ok p) ↔ InFormat Spells (split "a::\npush a:\n")) := by
  intro h
  have hfail : assemble "a::\npush a:\n" = .error ⟨2, .invalidLabel "push a:"⟩ := rfl
  have hfirst : Defines "a::" "a:" := ⟨rfl, by decide, by decide, by decide⟩
  have hin : InFormat Spells (split "a::\npush a:\n") := by
    rintro (_ | _ | i) raw hraw
    · obtain rfl : "a::" = raw := Option.some.inj hraw
      refine .label hfirst ?_
      rintro ⟨_ | _ | i, raw, hne, hraw, hdef⟩
      · exact hne rfl
      · obtain rfl : "push a:" = raw := Option.some.inj hraw
        exact absurd hdef.1 (by decide)
      · cases hraw
    · obtain rfl : "push a:" = raw := Option.some.inj hraw
      have hspells : Spells "push a:" .push ["a:"] := rfl
      exact .target hspells (by decide) rfl ⟨0, "a::", trivial, rfl, hfirst⟩
    · cases hraw
  obtain ⟨p, hp⟩ := h.mpr hin
  rw [hfail] at hp
  cases hp

end Executable

end Foolscap
