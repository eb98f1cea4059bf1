import Foolscap.Machine.Assembler
import Foolscap.Proofs.Assembly.Linked
import Foolscap.Proofs.Text.Plain

/-!
# Assembled text

Lines of assembly written as text and read again are linked: assembling the text of sound lines
succeeds, and its code is what the lines are linked to.
-/

namespace Foolscap

open List Text

namespace Text

/-- A word that an instruction or an operand can be: plain, not empty, and not a label with its
colon. -/
structure IsWord (t : Text) : Prop where
  plain : t.IsPlain
  ne_nil : t ≠ []
  no_colon : t.getLast? ≠ some 58

theorem IsWord.of_digits {s t : Text} (hs : s.IsPlain) (ht : t ≠ []) (hd : ∀ b ∈ t, isDigitByte b) :
    (s ++ t).IsWord := by
  refine ⟨hs.append fun b hb => isVisible_of_isDigitByte (hd b hb), by simp [ht], ?_⟩
  intro h
  have hlast : t.getLast? = some 58 := by
    obtain ⟨b, t, rfl⟩ := exists_cons_of_ne_nil ht
    simpa [List.getLast?_cons] using h
  exact absurd (hd 58 (mem_of_getLast? hlast)) (by decide)

theorem isWord_ofInt (n : Int) : (ofInt n).IsWord := by
  cases n with
  | ofNat n =>
    exact .of_digits (s := []) (by decide) (ofNat_ne_nil n) fun b hb => isDigitByte_of_mem_ofNat hb
  | negSucc n =>
    exact .of_digits (s := [45]) (by decide) (ofNat_ne_nil _) fun b hb =>
      isDigitByte_of_mem_ofNat hb

end Text

theorem Opcode.isWord_mnemonic (o : Opcode) : o.mnemonic.IsWord := by
  cases o <;> exact ⟨by decide, by decide, by decide⟩

namespace Label

theorem isWord_text (l : Label) : l.text.IsWord := by
  cases l with
  | branch n | routine n =>
    exact .of_digits (by decide) (ofNat_ne_nil n) fun b hb => isDigitByte_of_mem_ofNat hb

/-- A label is no number. -/
theorem toWord?_text (l : Label) : toWord? l.text = none := by
  cases l <;> rfl

/-- Different labels are written differently. -/
theorem text_injective {l l' : Label} (h : l.text = l'.text) : l = l' := by
  cases l with
  | branch n =>
    cases l' with
    | branch m => exact congrArg branch (ofNat_injective (append_cancel_left h))
    | routine m => exact absurd (List.cons.inj h).1 (by decide)
  | routine n =>
    cases l' with
    | branch m => exact absurd (List.cons.inj h).1 (by decide)
    | routine m => exact congrArg routine (ofNat_injective (append_cancel_left h))

end Label

/-! ### Reading a line -/

namespace Statement

variable {t : Text}

theorem read_word (h : t.IsWord) {o : Opcode} (ho : Opcode.ofMnemonic? t = some o) :
    read t = readInstruction o [] := by
  simp [read, trim_plain h.plain, h.ne_nil, h.no_colon, words_plain h.plain h.ne_nil, ho]

theorem read_pair (h : t.IsWord) (o : Opcode) :
    read (o.mnemonic ++ 32 :: t) = readInstruction o [t] := by
  have hm := o.isWord_mnemonic
  simp [read, trim_pair hm.plain h.plain hm.ne_nil h.ne_nil, getLast?_pair h.ne_nil,
    h.no_colon, words_pair hm.plain h.plain hm.ne_nil h.ne_nil, Opcode.ofMnemonic?_mnemonic]

theorem read_label (h : t.IsWord) : read (t ++ [58]) = .ok (mark t) := by
  have hplain : Text.IsPlain (t ++ [58]) := h.plain.append (by decide)
  have hno : ∀ b, isVisible b = false → b ∉ t := by
    intro b hb hmem
    rw [h.plain b hmem] at hb
    cases hb
  have hmark : readMark (t ++ [58]) = .ok (mark t) := by
    simp [readMark, h.ne_nil, hno 32 (by decide), hno 9 (by decide)]
  simp [read, trim_plain hplain, hmark]

theorem readInstruction_number {n : Int} (h : fitsWord n) :
    readInstruction .push [ofInt n] = .ok (withOperand .push (.number (Int64.ofInt n))) := by
  simp [readInstruction, Opcode.hasOperand, Operand.read, toWord?_ofInt h]

theorem readInstruction_label {o : Opcode} (ho : o.hasOperand) (l : Label) :
    readInstruction o [l.text] = .ok (withOperand o (.label l.text)) := by
  simp [readInstruction, ho, Operand.read, l.toWord?_text]

end Statement

/-- Lines without line ends are taken apart as they were put together. -/
theorem Assembler.split_unlines {ts : List Text} (h : ∀ t ∈ ts, newline ∉ t) :
    split (unlines ts) = ts := by
  cases ts with
  | nil => rfl
  | cons t ts =>
    have hne : unlines (t :: ts) ≠ [] := by simp [unlines]
    have hlast : (unlines (t :: ts)).getLast? = some newline := by
      have hne' : t :: ts ≠ [] := by simp
      rw [← dropLast_concat_getLast hne', unlines, flatMap_append]
      simp
    rw [split, if_pos hlast]
    · exact lines_dropLast_unlines (by simp) h
    · exact hne

namespace Line

/-- What a line says when it is read. -/
def statement : Line → Statement
  | op o => .plain o
  | push n => .withOperand .push (.number (Int64.ofInt n))
  | pushLabel s => .withOperand .push (.label s.text)
  | branch b l => .withOperand b.opcode (.label l.text)
  | mark l => .mark l.text

/-- A line whose text says what the line means, given the labels that are marked: instructions have
the operands they need, numbers fit into words and labels exist. -/
def Sound (known : List Label) : Line → Prop
  | op o => o.hasOperand = false
  | push n => Text.fitsWord n
  | pushLabel s => ∃ l ∈ known, s = some l
  | branch _ l => l ∈ known
  | mark _ => True

theorem mnemonic_append (o : Opcode) (t : Text) :
    o.mnemonic ++ (" " : Text) ++ t = o.mnemonic ++ 32 :: t := by
  rw [append_assoc]
  rfl

variable {known : List Label} {x : Line}

/-- The text of a sound line is read as its statement. -/
theorem read_text (h : x.Sound known) : Statement.read x.text = .ok x.statement := by
  cases x with
  | op o =>
    have ho : o.hasOperand = false := h
    rw [text, Statement.read_word o.isWord_mnemonic (Opcode.ofMnemonic?_mnemonic o)]
    simp [Statement.readInstruction, ho, statement]
  | push n =>
    have hread := Statement.read_pair (isWord_ofInt n) .push
    rw [Statement.readInstruction_number h] at hread
    exact hread
  | pushLabel s =>
    obtain ⟨l, -, rfl⟩ := h
    have hread := Statement.read_pair l.isWord_text .push
    rw [Statement.readInstruction_label rfl] at hread
    exact hread
  | branch b l =>
    have hread := Statement.read_pair l.isWord_text b.opcode
    rw [Statement.readInstruction_label (by cases b <;> rfl)] at hread
    rw [text, mnemonic_append]
    exact hread
  | mark l => exact Statement.read_label l.isWord_text

/-! ### Laying out and resolving -/

@[simp] theorem length_statement_cells (x : Line) : x.statement.cells.length = x.width := by
  cases x <;> rfl

/-- Taking in a line that marks no label fills its cells. -/
theorem layout_add (hx : ∀ l, x ≠ mark l) (L : Assembler.Layout) (number : Nat) :
    L.add number x.statement = .ok { L with
      cells := L.cells ++ (x.statement.cells.map fun c => (number, c)).toArray } := by
  cases x with
  | mark l => exact absurd rfl (hx l)
  | _ => rfl

/-- Laying out the text of sound lines fills their cells and gives their labels their addresses. -/
theorem layout_text {ls : List Line} (hs : ∀ x ∈ ls, x.Sound known) (hn : (marks ls).Nodup)
    {L : Assembler.Layout} (hL : ∀ l ∈ marks ls, L.labels.get? l.text = none) (number : Nat) :
    ∃ L', Assembler.layout L number (ls.map text) = .ok L' ∧
      L'.cells.toList.map Prod.snd =
        L.cells.toList.map Prod.snd ++ ls.flatMap (fun x => x.statement.cells) ∧
      (∀ l ∈ marks ls, L'.labels.get? l.text = some (L.cells.size + address l ls)) ∧
      ∀ l ∉ marks ls, L'.labels.get? l.text = L.labels.get? l.text := by
  induction ls generalizing L number with
  | nil => exact ⟨L, rfl, by simp, by simp [marks], fun l _ => rfl⟩
  | cons x ls ih =>
    have hread := read_text (hs x (by simp))
    have hs' : ∀ y ∈ ls, y.Sound known := fun y hy => hs y (by simp [hy])
    by_cases hx : ∃ l, x = mark l
    · obtain ⟨l, rfl⟩ := hx
      obtain ⟨hl, hn'⟩ := nodup_cons.mp hn
      have hne : ∀ l' ∈ marks ls, l'.text ≠ l.text := by
        intro l' hl' h
        exact hl (Label.text_injective h ▸ hl')
      obtain ⟨L', hlay, hcells, hin, hout⟩ := ih (L := { L with
          labels := L.labels.put l.text L.cells.size }) hs' hn' (by
        intro l' hl'
        rw [Table.get?_put_of_ne _ _ (hne l' hl')]
        exact hL l' (by simp [marks, hl'])) (number + 1)
      have hnone : L.labels.has l.text = false := by simp [Table.has, hL l (by simp [marks])]
      refine ⟨L', ?_, ?_, ?_, ?_⟩
      · rw [map_cons, Assembler.layout, hread]
        simp only [statement, Assembler.Layout.add, hnone]
        exact hlay
      · rw [hcells]
        simp [statement, Statement.cells]
      · intro l' hl'
        by_cases he : l' = l
        · subst he
          rw [hout l' hl, Table.get?_put_self]
          simp [address]
        · have hmem : l' ∈ marks ls := by simpa [marks, he] using hl'
          rw [hin l' hmem, address, if_neg fun h => he h.symm]
      · intro l' hl'
        have hl₁ : l' ≠ l := fun h => hl' (by simp [marks, h])
        have hl₂ : l' ∉ marks ls := fun h => hl' (by simp [marks, h])
        rw [hout l' hl₂, Table.get?_put_of_ne _ _ fun h => hl₁ (Label.text_injective h)]
    · have hmarks : marks (x :: ls) = marks ls := by
        cases x with
        | mark l => exact absurd ⟨l, rfl⟩ hx
        | _ => rfl
      have haddr : ∀ l, address l (x :: ls) = x.width + address l ls := by
        intro l
        cases x with
        | mark l => exact absurd ⟨l, rfl⟩ hx
        | _ => rfl
      rw [hmarks] at hn hL ⊢
      obtain ⟨L', hlay, hcells, hin, hout⟩ := ih (L := { L with
        cells := L.cells ++ (x.statement.cells.map fun c => (number, c)).toArray }) hs' hn hL
        (number + 1)
      refine ⟨L', ?_, ?_, ?_, hout⟩
      · rw [map_cons, Assembler.layout, hread]
        simp only [layout_add fun l h => hx ⟨l, h⟩]
        exact hlay
      · rw [hcells]
        simp [Function.comp_def]
      · intro l hl
        rw [hin l hl, haddr]
        simp [Nat.add_assoc]

/-- The value of a cell once labels have addresses. -/
def value (labels : Table Nat) : Operand → Word
  | .number w => w
  | .label name => Int64.ofNat ((labels.get? name).getD 0)

theorem mapM_resolve {labels : Table Nat} {cells : List (Nat × Operand)}
    (h : ∀ name, .label name ∈ cells.map Prod.snd → (labels.get? name).isSome) :
    cells.mapM (Assembler.resolve labels) = .ok ((cells.map Prod.snd).map (value labels)) := by
  induction cells with
  | nil => rfl
  | cons c cells ih =>
    have hc : Assembler.resolve labels c = .ok (value labels c.2) := by
      obtain ⟨n, c⟩ := c
      cases c with
      | number w => rfl
      | label name =>
        obtain ⟨a, ha⟩ := Option.isSome_iff_exists.mp (h name (by simp))
        simp [Assembler.resolve, value, ha]
    rw [mapM_cons, hc, ih fun name hn => h name (by simp [hn])]
    rfl

/-- Sound lines with distinct labels. -/
structure Linkable (ls : List Line) : Prop where
  sound : ∀ x ∈ ls, x.Sound (marks ls)
  nodup : (marks ls).Nodup

theorem newline_notMem_plain {t : Text} (h : t.IsPlain) : newline ∉ t :=
  fun hmem => absurd (h _ hmem) (by decide)

theorem newline_notMem_pair {s t : Text} (hs : s.IsPlain) (ht : t.IsPlain) :
    newline ∉ s ++ 32 :: t := by
  rw [mem_append, mem_cons]
  rintro (h | h | h)
  · exact newline_notMem_plain hs h
  · exact absurd h (by decide)
  · exact newline_notMem_plain ht h

/-- The text of a line has no line end. -/
theorem newline_notMem_text (x : Line) : newline ∉ x.text := by
  cases x with
  | op o => exact newline_notMem_plain o.isWord_mnemonic.plain
  | push n =>
    exact newline_notMem_pair (s := Opcode.push.mnemonic) (by decide) (isPlain_ofInt n)
  | pushLabel s =>
    refine newline_notMem_pair (s := Opcode.push.mnemonic) (t := Slot.text s) (by decide) ?_
    cases s with
    | none => exact fun b hb => absurd hb (by simp [Slot.text])
    | some l => exact l.isWord_text.plain
  | branch b l =>
    rw [text, mnemonic_append]
    exact newline_notMem_pair b.opcode.isWord_mnemonic.plain l.isWord_text.plain
  | mark l => exact newline_notMem_plain (l.isWord_text.plain.append (by decide))

theorem split_textOf (ls : List Line) : Assembler.split (textOf ls) = ls.map text := by
  apply Assembler.split_unlines
  intro t ht
  obtain ⟨x, -, rfl⟩ := mem_map.mp ht
  exact x.newline_notMem_text

/-- A sound line is resolved to its cells. -/
theorem map_value_cells {labels : Table Nat} {at_ : Label → Nat} (hx : x.Sound known)
    (h : ∀ l ∈ known, labels.get? l.text = some (at_ l)) :
    x.statement.cells.map (value labels) = x.cells at_ := by
  cases x with
  | pushLabel s =>
    obtain ⟨l, hl, rfl⟩ := hx
    simp [statement, Statement.cells, value, cells, Slot.text, h l hl]
  | branch b l => simp [statement, Statement.cells, value, cells, h l hx]
  | _ => rfl

theorem mem_known_of_label {name : Text} (hx : x.Sound known)
    (hc : .label name ∈ x.statement.cells) : ∃ l ∈ known, l.text = name := by
  cases x with
  | pushLabel s =>
    obtain ⟨l, hl, rfl⟩ := hx
    exact ⟨l, hl, by simpa [statement, Statement.cells, Slot.text, eq_comm] using hc⟩
  | branch b l => exact ⟨l, hx, by simpa [statement, Statement.cells, eq_comm] using hc⟩
  | _ => simp [statement, Statement.cells] at hc

/-- The text of linkable lines is assembled to their linked cells. -/
theorem assemble_textOf {ls : List Line} (h : Linkable ls) :
    ∃ x, Executable.assemble (textOf ls) = .ok x ∧ x.code.toList = linked ls := by
  obtain ⟨L, hlay, hcells, hin, -⟩ := layout_text (L := {}) h.sound h.nodup (by simp) 1
  have haddr : ∀ l ∈ marks ls, L.labels.get? l.text = some (address l ls) := by
    intro l hl
    simpa using hin l hl
  have hcells' : L.cells.toList.map Prod.snd = ls.flatMap fun x => x.statement.cells := by
    simpa using hcells
  have hknown : ∀ name, .label name ∈ L.cells.toList.map Prod.snd →
      (L.labels.get? name).isSome := by
    intro name hname
    rw [hcells', mem_flatMap] at hname
    obtain ⟨x, hx, hc⟩ := hname
    obtain ⟨l, hl, rfl⟩ := mem_known_of_label (h.sound x hx) hc
    rw [haddr l hl]
    rfl
  have hcode : (ls.flatMap fun x => x.statement.cells).map (value L.labels) = linked ls := by
    rw [linked, map_flatMap, flatMap_def, flatMap_def,
      map_congr_left fun x hx => map_value_cells (h.sound x hx) haddr]
  have hmap : L.cells.mapM (Assembler.resolve L.labels) = .ok (linked ls).toArray := by
    rw [Array.mapM_eq_mapM_toList, mapM_resolve hknown, hcells', hcode]
    rfl
  refine ⟨⟨(linked ls).toArray, L.cells.map fun c => (c.1 : Int), ls.map text, L.labels⟩, ?_, rfl⟩
  rw [Executable.assemble, split_textOf, Executable.ofLines, hlay]
  simp only [bind, Except.bind, hmap]
  rfl

end Line

end Foolscap
