import Foolscap.Machine.Assembler
import Foolscap.Proofs.Text.Excerpts

/-!
# What a line of assembly says

The format of a line of assembly, apart from how it is read: a line is blank, it defines a label, or
it is an instruction.  White space at the ends of a line does not count.

## Design Notes

A line that ends in a colon is never an instruction, even if its words are an instruction and an
operand that ends in a colon.  So a label whose own name ends in a colon can be defined, but nothing
can refer to it.
-/

namespace Foolscap

namespace Assembler

/-- The instructions that are followed by an operand. -/
def operandTakers : List Opcode := [.push, .b, .beq, .bleq]

/-- A line defines a label: it is the name of the label, neither empty nor with a space or a tab in
it, and a colon. -/
def Defines (raw name : Text) : Prop :=
  raw.trim = name ++ [58] ∧ name ≠ [] ∧ 32 ∉ name ∧ 9 ∉ name

/-- The words of a line are an instruction and operands. -/
def Spells (raw : Text) (o : Opcode) (args : List Text) : Prop :=
  raw.trim.words = o.mnemonic :: args

/-- A line is an instruction: its words are, and it does not end in a colon. -/
def Instructs (raw : Text) (o : Opcode) (args : List Text) : Prop :=
  Spells raw o args ∧ raw.trim.getLast? ≠ some 58

theorem hasOperand_iff (o : Opcode) : o.hasOperand = true ↔ o ∈ operandTakers := by
  cases o <;> decide

theorem Spells.trim_ne_nil {raw : Text} {o : Opcode} {args : List Text} (h : Spells raw o args) :
    raw.trim ≠ [] := by
  intro hnil
  rw [Spells, hnil] at h
  cases h

theorem Defines.getLast? {raw name : Text} (h : Defines raw name) :
    raw.trim.getLast? = some 58 := by
  rw [h.1, List.getLast?_concat]

end Assembler

open Assembler

theorem Opcode.eq_mnemonic {word : Text} {o : Opcode} (h : ofMnemonic? word = some o) :
    word = o.mnemonic := by
  rw [ofMnemonic?] at h
  have hfound := List.find?_some h
  exact (beq_iff_eq.mp hfound).symm

namespace Statement

/-- What a line says.  Only `push` takes a number. -/
inductive Says (raw : Text) : Statement → Prop where
  | blank (h : raw.trim = []) : Says raw blank
  | mark {name : Text} (h : Defines raw name) : Says raw (mark name)
  | plain {o : Opcode} (h : Instructs raw o []) (ho : o ∉ operandTakers) : Says raw (plain o)
  | number {arg : Text} {w : Word} (h : Instructs raw .push [arg])
      (hw : Text.toWord? arg = some w) : Says raw (withOperand .push (.number w))
  | label {o : Opcode} {name : Text} (h : Instructs raw o [name]) (ho : o ∈ operandTakers)
      (hname : Text.toWord? name = none) : Says raw (withOperand o (.label name))

/-- A line that ends with a colon marks the label in front of it, which is not empty and has no
blanks. -/
theorem readMark_eq_ok_iff {line : Text} {s : Statement} (h : line.getLast? = some 58) :
    readMark line = .ok s ↔
      ∃ name, line = name ++ [58] ∧ name ≠ [] ∧ 32 ∉ name ∧ 9 ∉ name ∧ s = mark name := by
  obtain ⟨name, rfl⟩ := List.getLast?_eq_some_iff.mp h
  unfold readMark
  rw [List.dropLast_concat]
  dsimp only
  constructor
  · intro hread
    split at hread
    · cases hread
    · next hgood =>
      cases hread
      exact ⟨name, rfl, by simpa [not_or, and_assoc] using hgood⟩
  · rintro ⟨name', heq, hne, hspace, htab, rfl⟩
    obtain rfl := List.append_cancel_right heq
    simp [hne, hspace, htab]

/-- What an instruction and its operands say. -/
theorem readInstruction_eq_ok_iff {o : Opcode} {args : List Text} {s : Statement} :
    readInstruction o args = .ok s ↔
      args = [] ∧ o ∉ operandTakers ∧ s = plain o ∨
      (∃ arg w, args = [arg] ∧ o = .push ∧ Text.toWord? arg = some w ∧
        s = withOperand .push (.number w)) ∨
      ∃ name, args = [name] ∧ o ∈ operandTakers ∧ Text.toWord? name = none ∧
        s = withOperand o (.label name) := by
  unfold readInstruction Operand.read
  by_cases ho : o.hasOperand = true
  · have hmem := (hasOperand_iff o).mp ho
    rw [if_pos ho]
    rcases args with _ | ⟨arg, _ | ⟨more, args⟩⟩
    · simp [hmem]
    · cases hw : Text.toWord? arg with
      | none => simp [hmem, hw, eq_comm]
      | some w =>
        by_cases hpush : o = .push
        · subst hpush
          simp [hw, eq_comm]
        · simp [hmem, hw, hpush]
    · simp
  · have hmem : o ∉ operandTakers := fun h => ho ((hasOperand_iff o).mpr h)
    have hpush : o ≠ .push := fun h => ho (h ▸ rfl)
    rw [if_neg ho]
    rcases args with _ | ⟨arg, args⟩
    · simp [hmem, eq_comm]
    · simp [hmem, hpush]

/-- A line is read as what it says, and not at all if it says nothing. -/
theorem read_eq_ok_iff {raw : Text} {s : Statement} : read raw = .ok s ↔ Says raw s := by
  unfold read
  dsimp only
  constructor
  · intro h
    split at h
    · next hnil =>
      cases h
      exact .blank (List.isEmpty_iff.mp hnil)
    next hne =>
    split at h
    · next hcolon =>
      obtain ⟨name, hname, hrest, hspace, htab, rfl⟩ := (readMark_eq_ok_iff hcolon).mp h
      exact .mark ⟨hname, hrest, hspace, htab⟩
    next hcolon =>
    split at h
    · next hwords => exact absurd hwords (Text.words_trim_ne_nil (by simpa using hne))
    next word args hwords =>
    split at h
    · next o ho =>
      rw [Opcode.eq_mnemonic ho] at hwords
      rcases readInstruction_eq_ok_iff.mp h with ⟨rfl, hmem, rfl⟩ | ⟨arg, w, rfl, rfl, hw, rfl⟩ |
        ⟨name, rfl, hmem, hname, rfl⟩
      · exact .plain ⟨hwords, hcolon⟩ hmem
      · exact .number ⟨hwords, hcolon⟩ hw
      · exact .label ⟨hwords, hcolon⟩ hmem hname
    · cases h
  · -- An instruction has words and does not end in a colon, so it is looked up.
    have hinstructs : ∀ {o args}, Instructs raw o args → readInstruction o args = .ok s →
        read raw = .ok s := by
      intro o args hi hread
      unfold read
      dsimp only
      have hne : ¬ raw.trim.isEmpty := fun h => hi.1.trim_ne_nil (List.isEmpty_iff.mp h)
      rw [if_neg hne, if_neg hi.2, hi.1]
      simp only [Opcode.ofMnemonic?_mnemonic]
      exact hread
    rintro (hnil | hdef | ⟨hi, hmem⟩ | ⟨hi, hw⟩ | ⟨hi, hmem, hname⟩)
    · rw [hnil]
      rfl
    · have hne : ¬ raw.trim.isEmpty := by simp [hdef.1]
      rw [if_neg hne, if_pos hdef.getLast?]
      exact (readMark_eq_ok_iff hdef.getLast?).mpr
        ⟨_, hdef.1, hdef.2.1, hdef.2.2.1, hdef.2.2.2, rfl⟩
    · exact hinstructs hi (readInstruction_eq_ok_iff.mpr (.inl ⟨rfl, hmem, rfl⟩))
    · exact hinstructs hi (readInstruction_eq_ok_iff.mpr (.inr (.inl ⟨_, _, rfl, rfl, hw, rfl⟩)))
    · exact hinstructs hi (readInstruction_eq_ok_iff.mpr (.inr (.inr ⟨_, rfl, hmem, hname, rfl⟩)))

/-- A line says one thing. -/
theorem Says.unique {raw : Text} {s s' : Statement} (h : Says raw s) (h' : Says raw s') : s = s' :=
  Except.ok.inj ((read_eq_ok_iff.mpr h).symm.trans (read_eq_ok_iff.mpr h'))

end Statement

end Foolscap
