import Foolscap.Proofs.Assembly.Assembled
import Foolscap.Proofs.Image.RoundTrip

/-!
# Programs in images

An assembled program survives being stored.  Its assembly, written as text, is assembled to the
same program, and so is the assembly in its image.  Whether the image can be read once it is written
depends on two things only: neither the assembly nor the code may be too long, and the text that the
program was compiled from must be well-formed UTF-8.  Which of them fails decides the reason given.
-/

namespace Foolscap

open List

/-! ### Texts -/

namespace Text

/-- The parts of a text do not contain the byte between them. -/
theorem notMem_of_mem_splitAt {b : UInt8} {t s : Text} (hs : s ∈ splitAt b t) : b ∉ s := by
  induction t generalizing s with
  | nil =>
    obtain rfl : s = [] := by simpa using hs
    exact not_mem_nil
  | cons c t ih =>
    rw [splitAt] at hs
    split at hs
    · rcases mem_cons.mp hs with rfl | hs
      · exact not_mem_nil
      · exact ih hs
    · next hne =>
      cases hparts : splitAt b t with
      | nil => exact absurd hparts (splitAt_ne_nil b t)
      | cons u us =>
        rw [hparts] at hs ih
        rcases mem_cons.mp hs with rfl | hs
        · rw [mem_cons, not_or]
          exact ⟨fun h => hne h.symm, ih (by simp)⟩
        · exact ih (by simp [hs])

theorem isUtf8_of_ascii {t : Text} (h : ∀ b ∈ t, b < 128) : t.isUtf8 := by
  rw [isUtf8, glyphs_eq_map h, all_map, all_eq_true]
  intro b hb
  have hlt : b.toNat < 128 := UInt8.lt_iff_toNat_lt.mp (h b hb)
  have hne : b.toNat ≠ Glyph.replacement := by
    rw [Glyph.replacement]
    omega
  simp [Glyph.isStray, hne]

theorem length_unlines_cons (t : Text) (ts : List Text) :
    (unlines (t :: ts)).length = t.length + 1 + (unlines ts).length := by
  have hcons : unlines (t :: ts) = t ++ [newline] ++ unlines ts := rfl
  rw [hcons, length_append, length_append, length_singleton]

theorem length_le_unlines {ls : List Text} {l : Text} (h : l ∈ ls) :
    l.length ≤ (unlines ls).length := by
  induction ls with
  | nil => cases h
  | cons t ts ih =>
    rw [length_unlines_cons]
    rcases mem_cons.mp h with rfl | h
    · omega
    · have := ih h
      omega

theorem length_unlines_ge (ls : List Text) : ls.length ≤ (unlines ls).length := by
  induction ls with
  | nil => exact Nat.le_refl 0
  | cons t ts ih =>
    rw [length_unlines_cons, length_cons]
    omega

end Text

/-- The text of a line is ASCII. -/
theorem Line.lt_of_mem_text (x : Line) : ∀ b ∈ x.text, b < 128 := by
  have hplain : ∀ {t : Text}, t.IsPlain → ∀ b ∈ t, b < 128 :=
    fun h b hb => Text.isVisible_lt (h b hb)
  cases x with
  | op o => exact hplain o.isWord_mnemonic.plain
  | push n =>
    exact Text.lt_of_mem_pair (s := Opcode.push.mnemonic) (by decide) (Text.isPlain_ofInt n)
  | pushLabel s =>
    refine Text.lt_of_mem_pair (s := Opcode.push.mnemonic) (t := Slot.text s) (by decide) ?_
    cases s with
    | none => exact fun b hb => absurd hb (by simp [Slot.text])
    | some l => exact l.isWord_text.plain
  | branch b l =>
    rw [text, mnemonic_append]
    exact Text.lt_of_mem_pair b.opcode.isWord_mnemonic.plain l.isWord_text.plain
  | mark l => exact hplain (l.isWord_text.plain.append (by decide))

/-! ### Assembled programs -/

namespace Assembler

theorem newline_notMem_split {t l : Text} (h : l ∈ split t) : Text.newline ∉ l := by
  unfold split at h
  split at h
  · cases h
  · split at h
    · exact Text.notMem_of_mem_splitAt h
    · exact Text.notMem_of_mem_splitAt h

/-- A statement fills no more cells than its line, with the line end, has bytes: two at most, and
none on an empty line. -/
theorem length_cells_le {raw : Text} {s : Statement} (h : Statement.read raw = .ok s) :
    s.cells.length ≤ raw.length + 1 := by
  cases raw with
  | nil =>
    cases h
    exact Nat.zero_le 1
  | cons b t =>
    have htwo : s.cells.length ≤ 2 := by cases s <;> simp [Statement.cells]
    rw [length_cons]
    omega

/-- The cells of a statement belong to its line. -/
theorem add_measured {l l' : Layout} {number : Nat} {s : Statement} (h : l.add number s = .ok l') :
    l'.cells.size = l.cells.size + s.cells.length ∧
      ∀ c ∈ l'.cells, c ∈ l.cells ∨ c.1 = number := by
  have hcells : l'.cells = l.cells ++ (s.cells.map fun c => (number, c)).toArray := by
    cases s with
    | mark name =>
      simp only [Layout.add] at h
      split at h
      · cases h
      · cases h
        simp [Statement.cells]
    | _ =>
      cases h
      rfl
  rw [hcells]
  constructor
  · simp
  · intro c hc
    rcases Array.mem_append.mp hc with hc | hc
    · exact .inl hc
    · obtain ⟨o, -, rfl⟩ := mem_map.mp (mem_toArray.mp hc)
      exact .inr rfl

/-- Laying out lines adds no more cells than they have bytes, and every cell is marked with the
number of its line. -/
theorem layout_measured {ls : List Text} {l l' : Layout} {number : Nat}
    (h : layout l number ls = .ok l') :
    l'.cells.size ≤ l.cells.size + (Text.unlines ls).length ∧
      ∀ c ∈ l'.cells, c ∈ l.cells ∨ c.1 < number + ls.length := by
  induction ls generalizing l number with
  | nil =>
    cases h
    exact ⟨Nat.le_refl _, fun c hc => .inl hc⟩
  | cons raw ls ih =>
    rw [layout] at h
    split at h
    · cases h
    next s hread =>
    split at h
    · cases h
    next l₁ hadd =>
    obtain ⟨hsize, hmem⟩ := add_measured hadd
    obtain ⟨hsize', hmem'⟩ := ih h
    have hcells := length_cells_le hread
    rw [length_cons, Text.length_unlines_cons]
    refine ⟨by omega, fun c hc => ?_⟩
    rcases hmem' c hc with hc | hc
    · rcases hmem c hc with hc | hc
      · exact .inl hc
      · exact .inr (by omega)
    · exact .inr (by omega)

theorem length_of_resolve {labels : Table Nat} {cells : List (Nat × Operand)} {ws : List Word}
    (h : cells.mapM (resolve labels) = .ok ws) : ws.length = cells.length := by
  induction cells generalizing ws with
  | nil =>
    cases h
    rfl
  | cons c cells ih =>
    rw [mapM_cons] at h
    cases hc : resolve labels c with
    | error e =>
      rw [hc] at h
      cases h
    | ok w =>
      cases hcells : cells.mapM (resolve labels) with
      | error e =>
        rw [hc, hcells] at h
        cases h
      | ok vs =>
        rw [hc, hcells] at h
        cases h
        rw [length_cons, length_cons, ih hcells]

end Assembler

namespace Executable

/-- What assembling guarantees about sizes: there are no more cells than bytes of assembly, and
every cell belongs to a line. -/
structure Measured (p : Executable) : Prop where
  code : p.code.size ≤ p.text.length
  sourceMap : p.sourceMap.size = p.code.size
  mapped : ∀ n ∈ p.sourceMap, 0 ≤ n ∧ n ≤ p.lines.length

/-- Assembling keeps the lines.  It makes no more cells than the text has bytes, so an image of a
text that fits is one that fits. -/
theorem ofLines_measured {ls : List Text} {p : Executable} (h : ofLines ls = .ok p) :
    p.lines = ls ∧ p.Measured := by
  rw [ofLines] at h
  cases hlayout : Assembler.layout {} 1 ls with
  | error e =>
    rw [hlayout] at h
    cases h
  | ok l =>
    cases hcode : l.cells.mapM (Assembler.resolve l.labels) with
    | error e =>
      rw [hlayout] at h
      simp only [bind, Except.bind, hcode] at h
      cases h
    | ok code =>
      rw [hlayout] at h
      simp only [bind, Except.bind, hcode] at h
      cases h
      obtain ⟨hsize, hmem⟩ := Assembler.layout_measured hlayout
      have hcells : code.size = l.cells.size := by
        rw [Array.mapM_eq_mapM_toList] at hcode
        cases hlist : l.cells.toList.mapM (Assembler.resolve l.labels) with
        | error e =>
          rw [hlist] at hcode
          cases hcode
        | ok ws =>
          rw [hlist] at hcode
          cases hcode
          exact Assembler.length_of_resolve hlist
      refine ⟨rfl, by simpa [hcells, text] using hsize, by simp [hcells], ?_⟩
      intro n hn
      obtain ⟨c, hc, rfl⟩ := Array.mem_map.mp hn
      rcases hmem c hc with hc | hc
      · simp at hc
      · show 0 ≤ (c.1 : Int) ∧ (c.1 : Int) ≤ ls.length
        omega

/-- The text of an assembled program is assembled to that program. -/
theorem assemble_text {t : Text} {p : Executable} (h : assemble t = .ok p) :
    assemble p.text = .ok p := by
  have hlines := (ofLines_measured h).1
  rw [assemble, text, Assembler.split_unlines, hlines]
  · exact h
  · rw [hlines]
    exact fun l hl => Assembler.newline_notMem_split hl

/-- Whether the image of a program can be read, given the text the program was compiled from. -/
def isStorable (p : Executable) (source : Text) : Bool :=
  source.isUtf8 && p.lines.length ≤ Cbor.maxCount && p.code.size ≤ Cbor.maxCount

/-- Why the image of a program that is not storable is refused.  Lists that are too long are found
before any text is looked at. -/
def storageFlaw (p : Executable) : Cbor.Flaw :=
  if p.lines.length ≤ Cbor.maxCount ∧ p.code.size ≤ Cbor.maxCount then .notUtf8 else .tooManyItems

end Executable

/-! ### Images -/

namespace Uuid

theorem lt_of_fits {position : Nat} {b : UInt8} (h : fits position b) : b < 128 := by
  have hhex : isHexByte b → b < 128 := by
    simp only [isHexByte, Text.isDigitByte, Bool.or_eq_true, Bool.and_eq_true, decide_eq_true_eq,
      UInt8.le_iff_toNat_le, UInt8.lt_iff_toNat_lt]
    rintro (⟨-, hle⟩ | ⟨-, hle⟩)
    · exact Nat.lt_of_le_of_lt hle (by decide)
    · exact Nat.lt_of_le_of_lt hle (by decide)
  unfold fits at h
  split at h
  · rw [of_decide_eq_true h]
    decide
  split at h
  · rw [of_decide_eq_true h]
    decide
  split at h
  · simp only [Bool.or_eq_true, decide_eq_true_eq] at h
    rcases h with ((rfl | rfl) | rfl) | rfl <;> decide
  · exact hhex h

theorem ascii_of_isRandom {t : Text} (h : isRandom t) : ∀ b ∈ t, b < 128 := by
  intro b hb
  obtain ⟨i, hi, rfl⟩ := getElem_of_mem hb
  have hall := all_eq_true.mp (Bool.and_eq_true_iff.mp h).2
  have hmem : (t[i], i) ∈ t.zipIdx :=
    mk_mem_zipIdx_iff_getElem?.mpr (List.getElem?_eq_getElem hi)
  exact lt_of_fits (hall _ hmem)

end Uuid

namespace Image

@[simp] theorem getD_unlessEmpty {α : Type} (as : List α) : (unlessEmpty as).getD [] = as := by
  cases as <;> rfl

theorem differsAt_self (a : Nat) (ws : List Word) : differsAt a ws ws = none := by
  induction ws generalizing a with
  | nil => rfl
  | cons w ws ih => rw [differsAt, if_pos rfl, ih]

variable {p : Executable} {id source : Text} {memory : Int}

/-- The program in the image of a program is that program. -/
theorem executable_ofExecutable (h : Executable.assemble p.text = .ok p) :
    (ofExecutable p id source memory).executable = ⟨.ok p, [p.assembledLog]⟩ := by
  have htext : (ofExecutable p id source memory).text = p.text := by
    rw [text, ofExecutable, getD_unlessEmpty, Executable.text]
  have hconfirm : (ofExecutable p id source memory).confirm p = .ok p := by
    simp [confirm, ofExecutable, differsAt_self]
  have hhash : ¬ Sha256.digest p.text ≠ (ofExecutable p id source memory).hash.getD [] :=
    not_not_intro rfl
  rw [executable, htext, if_neg hhash, h]
  dsimp only
  rw [hconfirm]

theorem length_digest (t : Text) : (Sha256.digest t).length = 32 := rfl

/-- All numbers and lengths in the image of a program are those of a 64-bit machine. -/
theorem sized_ofExecutable (hp : p.Measured) (htext : p.text.length < Word.limit)
    (hid : id.length < Word.limit) (hsource : source.length < Word.limit)
    (hmemory : Text.fitsWord memory) : (ofExecutable p id source memory).Sized := by
  have hlines : p.lines.length < Word.limit :=
    Nat.lt_of_le_of_lt (Text.length_unlines_ge p.lines) htext
  have hcode : p.code.size < Word.limit := Nat.lt_of_le_of_lt hp.code htext
  refine ⟨show 1 < 2 ^ 32 by decide, hid, hsource, ?_, ?_, ?_, ?_, ?_, hmemory, ?_⟩
  · rwa [ofExecutable, getD_unlessEmpty]
  · rw [ofExecutable, getD_unlessEmpty]
    intro l hl
    exact Nat.lt_of_le_of_lt (Text.length_le_unlines hl) htext
  · rwa [cells, ofExecutable, getD_unlessEmpty]
  · show p.sourceMap.size < Word.limit
    rwa [hp.sourceMap]
  · intro n hn
    obtain ⟨hlo, hhi⟩ := hp.mapped n (Array.mem_toList_iff.mp hn)
    rw [Word.limit] at hlines
    rw [Text.fitsWord_iff]
    omega
  · rw [ofExecutable, Option.getD_some, length_digest]
    decide

/-- What is read where the image of a program was written. -/
theorem unmarshal_ofExecutable (hp : p.Measured) (htext : p.text.length < Word.limit)
    (hlines : ∀ l ∈ p.lines, l.isUtf8) (hid : Uuid.isRandom id)
    (hsource : source.length < Word.limit) (hmemory : Text.fitsWord memory) :
    unmarshal (ofExecutable p id source memory).marshal =
      if p.isStorable source then .ok (ofExecutable p id source memory)
      else .error (.corrupt p.storageFlaw) := by
  have hlength : id.length < Word.limit := by
    rw [of_decide_eq_true (Bool.and_eq_true_iff.mp hid).1]
    decide
  have hsized := sized_ofExecutable hp htext hlength hsource hmemory
  have hutf8 : (ofExecutable p id source memory).isUtf8 = source.isUtf8 := by
    have hid8 : id.isUtf8 = true := Text.isUtf8_of_ascii (Uuid.ascii_of_isRandom hid)
    have hall : p.lines.all Text.isUtf8 = true := all_eq_true.mpr hlines
    simp [isUtf8, ofExecutable, hid8, hall]
  have hshort : (ofExecutable p id source memory).hasShortLists =
      decide (p.lines.length ≤ Cbor.maxCount ∧ p.code.size ≤ Cbor.maxCount) := by
    simp [hasShortLists, cells, ofExecutable, hp.sourceMap]
  rw [unmarshal_marshal hsized rfl, flaw?, hutf8, hshort, Executable.isStorable,
    Executable.storageFlaw]
  by_cases hl : p.lines.length ≤ Cbor.maxCount <;> by_cases hc : p.code.size ≤ Cbor.maxCount <;>
    cases source.isUtf8 <;> simp [hl, hc, Cbor.unflawed, Except.mapError]

end Image

end Foolscap
