import Foolscap.Proofs.Assembly.Format
import Foolscap.Proofs.Machine.InRange
import Foolscap.Proofs.Machine.Listing

/-!
# Listings of any code

Where instructions begin is not stored with the code.  A listing finds out by walking over the code
from its first cell, and one operand taken for an instruction would shift all that follows.  For
code that was assembled the walk comes to the instructions of the text, one after the other.
-/

namespace Foolscap

open List

namespace Instruction

/-- The cell behind the instruction at an address and its operand. -/
def behind (code : Array Word) (a : Nat) : Nat :=
  a + if (code[a]?).any Opcode.hasOperandOf then 2 else 1

/-- A walk from an address to the end of the code: each address is the one behind the instruction
at the address before it. -/
inductive Walks (code : Array Word) : Nat → List Nat → Prop where
  | done {a : Nat} (h : code.size ≤ a) : Walks code a []
  | line {a : Nat} {addrs : List Nat} (h : a < code.size)
      (rest : Walks code (behind code a) addrs) : Walks code a (a :: addrs)

theorem lt_behind (code : Array Word) (a : Nat) : a < behind code a := by
  rw [behind]
  split <;> omega

namespace Walks

variable {code : Array Word} {a : Nat} {addrs : List Nat}

theorem le_of_mem (h : Walks code a addrs) {b : Nat} (hb : b ∈ addrs) : a ≤ b := by
  induction h with
  | done _ => cases hb
  | @line a addrs _ _ ih =>
    rcases mem_cons.mp hb with rfl | hb
    · exact Nat.le_refl b
    · exact Nat.le_trans (Nat.le_of_lt (lt_behind code a)) (ih hb)

/-- Addresses increase. -/
theorem pairwise (h : Walks code a addrs) : addrs.Pairwise (· < ·) := by
  induction h with
  | done _ => exact .nil
  | @line a addrs _ rest ih =>
    exact .cons (fun b hb => Nat.lt_of_lt_of_le (lt_behind code a) (rest.le_of_mem hb)) ih

/-- No cell is skipped. -/
theorem covers (h : Walks code a addrs) {c : Nat} (hle : a ≤ c) (hlt : c < code.size) :
    ∃ b ∈ addrs, b ≤ c ∧ c < behind code b := by
  induction h with
  | done hend => omega
  | @line a addrs _ _ ih =>
    by_cases hc : c < behind code a
    · exact ⟨a, mem_cons_self, hle, hc⟩
    · obtain ⟨b, hb, hcell⟩ := ih (Nat.le_of_not_lt hc)
      exact ⟨b, mem_cons_of_mem a hb, hcell⟩

end Walks

end Instruction

open Instruction (behind Walks)

/-! ### Lines of a listing -/

namespace Text

theorem mem_hexOnto {ten : UInt8} {fuel n : Nat} {acc : Text} {b : UInt8}
    (h : b ∈ hexOnto ten fuel n acc) : b ∈ acc ∨ ∃ d < 16, b = hexByte ten d := by
  induction fuel generalizing n acc with
  | zero => exact .inl h
  | succ fuel ih =>
    rw [hexOnto] at h
    split at h
    · next hn =>
      rcases mem_cons.mp h with rfl | h
      · exact .inr ⟨n, hn, rfl⟩
      · exact .inl h
    · rcases ih h with h | h
      · rcases mem_cons.mp h with rfl | h
        · exact .inr ⟨n % 16, Nat.mod_lt n (by decide), rfl⟩
        · exact .inl h
      · exact .inr h

theorem isPlain_hexUpper (width n : Nat) : (hexUpper width n).IsPlain := by
  intro b hb
  rw [hexUpper, hex, mem_append] at hb
  rcases hb with hb | hb
  · rw [eq_of_mem_replicate hb]
    decide
  · rcases mem_hexOnto hb with hb | ⟨d, hd, rfl⟩
    · cases hb
    · have hvisible : ∀ d < 16, isVisible (hexByte 65 d) := by decide
      exact hvisible d hd

end Text

@[simp] theorem Opcode.nameOf_code (o : Opcode) : nameOf (Int64.ofNat o.code) = o.mnemonic := by
  rw [nameOf, ofWord?_code]

theorem Opcode.isPlain_nameOf (w : Word) : (nameOf w).IsPlain := by
  rw [nameOf]
  split
  · next o _ => exact o.isWord_mnemonic.plain
  · rw [unknownName]
    refine Text.IsPlain.append (by decide) ?_
    split
    · exact Text.isPlain_hexUpper 2 _
    · exact Text.IsPlain.append (s := [45]) (by decide) (Text.isPlain_hexUpper 1 _)

namespace Executable

variable {p : Executable}

/-- A line of a listing. -/
def shownAt (p : Executable) (a : Nat) : Text :=
  Text.padLeft 4 (Text.ofNat a) ++ "  " ++ p.instructionAt a

/-- What is shown for an instruction is one line, whatever the cell holds, so the listing has a
line for each of them. -/
theorem newline_notMem_instructionAt (a : Int) : Text.newline ∉ p.instructionAt a := by
  rw [instructionAt]
  split
  · decide
  split
  · next w _ =>
    rw [Instruction.text.eq_def]
    have hname := Line.newline_notMem_plain (Opcode.isPlain_nameOf w)
    split
    · next x _ =>
      split
      · rw [append_assoc]
        exact Line.newline_notMem_pair (Opcode.isPlain_nameOf w) (Text.isPlain_ofInt x.toInt)
      · exact hname
    · exact hname
  · decide

theorem newline_notMem_shownAt (a : Nat) : Text.newline ∉ p.shownAt a := by
  have hpad : Text.newline ∉ Text.padLeft 4 (Text.ofNat a) := by
    rw [Text.padLeft, mem_append]
    rintro (h | h)
    · cases eq_of_mem_replicate h
    · exact Line.newline_notMem_plain (Text.isPlain_ofNat a) h
  rw [shownAt, mem_append, mem_append]
  rintro ((h | h) | h)
  · exact hpad h
  · exact absurd h (by decide)
  · exact newline_notMem_instructionAt _ h

/-- A listing has one line for each address that it shows. -/
theorem split_listing (p : Executable) : Assembler.split p.listing = p.starts.map p.shownAt := by
  have hlines : p.listing = Text.unlines (p.starts.map p.shownAt) := by
    rw [listing_eq, Text.unlines, flatMap_map]
    rfl
  rw [hlines]
  apply Assembler.split_unlines
  intro t ht
  obtain ⟨a, -, rfl⟩ := mem_map.mp ht
  exact newline_notMem_shownAt a

/-- A listing walks over the code from any address that it comes to. -/
theorem walks_from {before ws : List Word} (h : p.code.toList = before ++ ws) {a : Nat}
    (ha : before.length = a) : Walks p.code a (Instruction.starts a ws) := by
  have hsize : p.code.size = before.length + ws.length := by
    rw [← Array.length_toList, h, length_append]
  have hcell : p.code[a]? = ws.head? := by
    rw [← Array.getElem?_toList, h, ← ha]
    cases ws <;> simp
  fun_induction Instruction.starts a ws generalizing before with
  | case1 a => exact .done (by simp [hsize, ha])
  | case2 a w =>
    refine .line (by simp [hsize, ha]) (.done ?_)
    have := Instruction.lt_behind p.code a
    simp only [hsize, ha, length_singleton]
    omega
  | case3 a w v rest ihlong ihshort =>
    have hbehind : behind p.code a = if Opcode.hasOperandOf w then a + 2 else a + 1 := by
      rw [behind, hcell]
      show a + (if Opcode.hasOperandOf w then 2 else 1) = _
      split <;> rfl
    refine .line (by simp [hsize, ha]) ?_
    rw [hbehind]
    split
    · have hlong : p.code.toList = (before ++ [w, v]) ++ rest := by simpa using h
      refine ihlong hlong (by simp [ha]) ?_ ?_
      · rw [hsize]; simp; omega
      · rw [← Array.getElem?_toList, hlong, ← ha]
        cases rest <;> simp
    · have hshort : p.code.toList = (before ++ [w]) ++ v :: rest := by simpa using h
      refine ihshort hshort (by simp [ha]) ?_ ?_
      · rw [hsize]; simp; omega
      · rw [← Array.getElem?_toList, hshort, ← ha]
        simp

/-- A listing walks over the code from its first cell. -/
theorem walks_starts (p : Executable) : Walks p.code 0 p.starts :=
  walks_from (nil_append _).symm rfl

end Executable

/-! ### Listings of assembly -/

namespace Assembler

/-- What a listing shows for the instruction on a line, where labels have addresses: its mnemonic,
and the number or the address that its operand stands for. -/
inductive Shows (addressOf : Text → Nat → Prop) (raw : Text) : Text → Prop where
  | bare {o : Opcode} (h : Instructs raw o []) : Shows addressOf raw o.mnemonic
  | number {arg : Text} {w : Word} (h : Instructs raw .push [arg])
      (harg : Text.toWord? arg = some w) :
      Shows addressOf raw (Opcode.push.mnemonic ++ " " ++ Text.ofWord w)
  | target {o : Opcode} {arg : Text} {a : Nat} (h : Instructs raw o [arg])
      (ho : o ∈ operandTakers) (harg : Text.toWord? arg = none) (ha : addressOf arg a) :
      Shows addressOf raw (o.mnemonic ++ " " ++ Text.ofNat a)

/-- A line is an instruction. -/
def IsInstruction (ls : List Text) (i : Nat) : Prop :=
  ∃ raw o args, ls[i]? = some raw ∧ Instructs raw o args

/-- The instruction on a line, counted from 0, is listed at the address where it was placed. -/
def ListedAt (ls : List Text) (p : Executable) (i a : Nat) : Prop :=
  ∃ blocks raw, CodeOf ls blocks p ∧ ls[i]? = some raw ∧ a = (blocks.take i).flatten.length ∧
    Shows (AddressOf ls blocks) raw (p.instructionAt a)

/-- Lines without cells are no instructions, and of the cells of an instruction a listing shows one
line, whatever follows them. -/
theorem Emits.shows {addressOf : Text → Nat → Prop}
    (haddr : ∀ name a, addressOf name a → a < Word.limit) {raw : Text} {ws : List Word}
    (h : Emits addressOf raw ws) :
    (ws = [] ∧ ∀ o args, ¬ Instructs raw o args) ∨
      ∃ o args x, Instructs raw o args ∧ ws = Int64.ofNat o.code :: x ∧
        x.length = (if o.hasOperand then 1 else 0) ∧
        ∀ rest, Shows addressOf raw (Instruction.text (Int64.ofNat o.code) (x ++ rest).head?) := by
  have hpair : ∀ {o : Opcode} {v : Word}, o.hasOperand = true →
      Instruction.text (Int64.ofNat o.code) (some v) = o.mnemonic ++ " " ++ Text.ofWord v := by
    intro o v ho
    rw [Instruction.text.eq_def, Opcode.hasOperandOf_code, ho, Opcode.nameOf_code]
    rfl
  cases h with
  | blank hnil => exact .inl ⟨rfl, fun o args hi => hi.1.trim_ne_nil hnil⟩
  | label hdef => exact .inl ⟨rfl, fun o args hi => hi.2 hdef.getLast?⟩
  | @bare o hi ho =>
    have hno : o.hasOperand = false := by
      rw [Bool.eq_false_iff, Ne, hasOperand_iff]
      exact ho
    refine .inr ⟨o, [], [], hi, rfl, by rw [hno]; rfl, fun rest => ?_⟩
    have htext : Instruction.text (Int64.ofNat o.code) rest.head? = o.mnemonic := by
      rw [Instruction.text.eq_def, Opcode.hasOperandOf_code, hno, Opcode.nameOf_code]
      cases rest.head? <;> rfl
    rw [nil_append, htext]
    exact .bare hi
  | number hi harg =>
    refine .inr ⟨.push, _, [_], hi, rfl, rfl, fun rest => ?_⟩
    rw [singleton_append, List.head?_cons, hpair rfl]
    exact .number hi harg
  | @target o arg a hi ho harg ha =>
    have hyes := (hasOperand_iff o).mpr ho
    refine .inr ⟨o, _, [_], hi, rfl, by rw [hyes]; rfl, fun rest => ?_⟩
    rw [singleton_append, List.head?_cons, hpair hyes, Bare.ofWord_ofNat (haddr arg a ha)]
    exact .target hi ho harg ha

section

variable {ls : List Text} {blocks : List (List Word)} {p : Executable}

theorem CodeOf.address_lt (h : CodeOf ls blocks p) (hp : p.code.size < Word.limit) (name : Text)
    (a : Nat) (ha : AddressOf ls blocks name a) : a < Word.limit := by
  obtain ⟨i, raw, -, -, rfl⟩ := ha
  refine Nat.lt_of_le_of_lt ?_ hp
  rw [← Array.length_toList, h.code]
  conv => rhs; rw [← take_append_drop i blocks, flatten_append, length_append]
  exact Nat.le_add_right _ _

/-- A line is an instruction if it is one. -/
theorem isInstruction_length {before after : List Text} {raw : Text} :
    IsInstruction (before ++ raw :: after) before.length ↔ ∃ o args, Instructs raw o args := by
  simp [IsInstruction]

/-- A walk from the first cell of a line comes to the instructions on this line and on those that
follow it. -/
theorem CodeOf.listed_from (h : CodeOf ls blocks p) (hp : p.code.size < Word.limit)
    {before after : List Text} {done left : List (List Word)} (hls : ls = before ++ after)
    (hblocks : blocks = done ++ left) (hlen : before.length = done.length)
    (hemits : List.Forall₂ (Emits (AddressOf ls blocks)) after left) {addrs : List Nat}
    (hwalk : Walks p.code done.flatten.length addrs) :
    ∃ is : List Nat, is.Pairwise (· < ·) ∧
      (∀ i, i ∈ is ↔ before.length ≤ i ∧ IsInstruction ls i) ∧
      List.Forall₂ (ListedAt ls p) is addrs := by
  induction hemits generalizing before done addrs with
  | nil =>
    have hsize : p.code.size = done.flatten.length := by
      rw [← Array.length_toList, h.code, hblocks, append_nil]
    cases hwalk with
    | line hlt _ => omega
    | done _ =>
      refine ⟨[], .nil, fun i => ⟨(nomatch ·), ?_⟩, .nil⟩
      rintro ⟨hle, raw, o, args, hraw, -⟩
      rw [hls, append_nil, List.getElem?_eq_none hle] at hraw
      cases hraw
  | @cons raw block after left hraw _ ih =>
    have hls' : ls = (before ++ [raw]) ++ after := by simpa using hls
    have hblocks' : blocks = (done ++ [block]) ++ left := by simpa using hblocks
    have hdone : (done ++ [block]).flatten.length = done.flatten.length + block.length := by simp
    have hcode : p.code.toList = done.flatten ++ (block ++ left.flatten) := by
      rw [h.code, hblocks, flatten_append, flatten_cons]
    replace ih := @ih (before ++ [raw]) (done ++ [block]) hls' hblocks' (by simp [hlen])
    have hfirst : IsInstruction ls before.length ↔ ∃ o args, Instructs raw o args := by
      rw [hls]
      exact isInstruction_length
    rcases hraw.shows (h.address_lt hp) with ⟨rfl, hno⟩ | ⟨o, args, x, hi, rfl, hx, hshows⟩
    · -- A line without cells does not move the walk.
      rw [hdone, length_nil, Nat.add_zero] at ih
      obtain ⟨is, hsorted, hmem, hlisted⟩ := ih hwalk
      refine ⟨is, hsorted, fun i => ?_, hlisted⟩
      have hne : IsInstruction ls i → i ≠ before.length := by
        rintro hinstruction rfl
        obtain ⟨o, args, hi⟩ := hfirst.mp hinstruction
        exact hno o args hi
      rw [hmem i, length_append, length_singleton]
      constructor
      · rintro ⟨hle, hinstruction⟩
        exact ⟨by omega, hinstruction⟩
      · rintro ⟨hle, hinstruction⟩
        have := hne hinstruction
        exact ⟨by omega, hinstruction⟩
    · have hcell : p.code[done.flatten.length]? = some (Int64.ofNat o.code) := by
        rw [← Array.getElem?_toList, hcode]
        simp
      have hbehind : behind p.code done.flatten.length =
          (done ++ [Int64.ofNat o.code :: x]).flatten.length := by
        rw [hdone, behind, hcell, Option.any_some, Opcode.hasOperandOf_code, length_cons, hx]
        split <;> rfl
      cases hwalk with
      | done hle => rw [Array.getElem?_eq_none hle] at hcell; cases hcell
      | @line _ addrs _ rest =>
        rw [hbehind] at rest
        obtain ⟨is, hsorted, hmem, hlisted⟩ := ih rest
        rw [length_append, length_singleton] at hmem
        refine ⟨before.length :: is, .cons (fun i hi => ((hmem i).mp hi).1) hsorted, fun i => ?_,
          .cons ?_ hlisted⟩
        · rw [mem_cons, hmem i]
          constructor
          · rintro (rfl | ⟨hle, hinstruction⟩)
            · exact ⟨Nat.le_refl _, hfirst.mpr ⟨o, args, hi⟩⟩
            · exact ⟨by omega, hinstruction⟩
          · rintro ⟨hle, hinstruction⟩
            rcases Nat.eq_or_lt_of_le hle with heq | hlt
            · exact .inl heq.symm
            · exact .inr ⟨hlt, hinstruction⟩
        · refine ⟨blocks, raw, h, by rw [hls]; simp, ?_, ?_⟩
          · rw [hblocks, hlen, take_left]
          · have htail : p.code.toList =
                done.flatten ++ Int64.ofNat o.code :: (x ++ left.flatten) := by simpa using hcode
            rw [Executable.instructionAt_append htail]
            exact hshows left.flatten

/-- A walk over assembled code comes to the instructions of the assembly, in their order. -/
theorem CodeOf.listed (h : CodeOf ls blocks p) (hp : p.code.size < Word.limit) {addrs : List Nat}
    (hwalk : Walks p.code 0 addrs) : ∃ is : List Nat, is.Pairwise (· < ·) ∧
      (∀ i, i ∈ is ↔ IsInstruction ls i) ∧ List.Forall₂ (ListedAt ls p) is addrs := by
  obtain ⟨is, hsorted, hmem, hlisted⟩ := h.listed_from hp (nil_append ls).symm
    (nil_append blocks).symm rfl h.emits hwalk
  exact ⟨is, hsorted, fun i => by simp [hmem], hlisted⟩

end

end Assembler

namespace Executable

/-- **Listings invert the assembler.**  The listing of any code is a walk over it: every line shows
an address and the instruction there, addresses start at 0 and increase, each is the one behind the
instruction and the operand before it, and no cell is skipped.  If the code is that of an assembly
text, then there is one line for each instruction of the text, in the order of the text.  It shows
the address where the instruction was placed, the mnemonic, and the number or the address of the
label that is the operand. -/
theorem listing_inverts_assembly (p : Executable) :
    ∃ addrs : List Nat, Assembler.split p.listing = addrs.map p.shownAt ∧ Walks p.code 0 addrs ∧
      addrs.Pairwise (· < ·) ∧ (∀ c < p.code.size, ∃ a ∈ addrs, a ≤ c ∧ c < behind p.code a) ∧
      ∀ t, assemble t = .ok p → p.code.size < Word.limit →
        ∃ is : List Nat, is.Pairwise (· < ·) ∧
          (∀ i, i ∈ is ↔ Assembler.IsInstruction (Assembler.split t) i) ∧
          List.Forall₂ (Assembler.ListedAt (Assembler.split t) p) is addrs := by
  have hwalk := walks_starts p
  refine ⟨p.starts, split_listing p, hwalk, hwalk.pairwise,
    fun c hc => hwalk.covers (Nat.zero_le c) hc, fun t ht hp => ?_⟩
  rcases ofLines_cases (Assembler.split t) with ⟨p', blocks, hp', -, hcode⟩ | ⟨err, i, herr, -⟩
  · obtain rfl := Except.ok.inj (hp'.symm.trans ht)
    exact hcode.listed hp hwalk
  · cases herr.symm.trans ht

/-- Assembly where an operand is the code of an instruction, a label is used before it is defined,
and lines are blank. -/
def forwardText : Text := "start:\n push 1\n\n\tb end\nprint\nend:\nhalt\n"

/-- The program of `forwardText`. -/
def forwardCode : Executable where
  code := #[1, 1, 32, 5, 64, 65]
  sourceMap := #[2, 2, 4, 4, 5, 7]
  lines := Assembler.split forwardText
  labels := [("start", 0), ("end", 5)]

/-- The listing of `forwardCode` has a line for each of the four instructions of `forwardText`. -/
theorem listing_inverts_assembly_forward :
    assemble forwardText = .ok forwardCode ∧
    ∃ addrs is : List Nat, addrs.map forwardCode.shownAt =
        ["   0  push 1", "   2  b 5", "   4  print", "   5  halt"] ∧
      (∀ i, i ∈ is ↔ Assembler.IsInstruction (Assembler.split forwardText) i) ∧
      List.Forall₂ (Assembler.ListedAt (Assembler.split forwardText) forwardCode) is addrs := by
  have hassemble : assemble forwardText = .ok forwardCode := @ofLines_of_ok
    (Assembler.split forwardText) ⟨#[(2, .number 1), (2, .number 1), (4, .number 32),
      (4, .label "end"), (5, .number 64), (7, .number 65)], [("start", 0), ("end", 5)]⟩ rfl
  obtain ⟨addrs, hlines, -, -, -, hassembled⟩ := listing_inverts_assembly forwardCode
  obtain ⟨is, -, hmem, hlisted⟩ := hassembled forwardText hassemble (by decide)
  exact ⟨hassemble, addrs, is, hlines.symm, hmem, hlisted⟩

end Executable

end Foolscap
