import Foolscap.Machine.Executable
import Foolscap.Proofs.Assembly.Assembled
import Foolscap.Proofs.Machine.Runs

/-!
# Addresses in listings

A listing of code has a row for each instruction, under the address of its first cell.
-/

namespace Foolscap

open List

/-- The addresses that the listing of code shows, if the code starts at an address. -/
def Instruction.starts : Nat → List Word → List Nat
  | _, [] => []
  | a, [_] => [a]
  | a, w :: x :: rest =>
    a :: if Opcode.hasOperandOf w then starts (a + 2) rest else starts (a + 1) (x :: rest)

namespace Executable

/-- The addresses that the listing of a program shows. -/
def starts (x : Executable) : List Nat := Instruction.starts 0 x.code.toList

/-- A machine is at an address that the listing of a program shows. -/
def ListsIp (x : Executable) (m : Machine) : Prop := ∃ a ∈ x.starts, m.ip = Int64.ofNat a

theorem instructionAt_append {x : Executable} {before : List Word} {w : Word} {rest : List Word}
    (h : x.code.toList = before ++ w :: rest) :
    x.instructionAt before.length = Instruction.text w rest.head? := by
  rw [instructionAt, if_neg (by omega), Int.toNat_natCast, ← Array.getElem?_toList,
    ← Array.getElem?_toList, h]
  cases rest with
  | nil => simp
  | cons v rest => simp

/-- The rows of a tail of the code are the instructions at its addresses. -/
theorem rows_eq {x : Executable} {before ws : List Word} (h : x.code.toList = before ++ ws)
    {a : Nat} (ha : before.length = a) :
    Instruction.rows a ws =
      (Instruction.starts a ws).flatMap fun a => Instruction.row a (x.instructionAt a) := by
  fun_induction Instruction.starts a ws generalizing before with
  | case1 a => rfl
  | case2 a w =>
    rw [Instruction.rows, flatMap_singleton, ← ha, instructionAt_append h]
    rfl
  | case3 a w v rest ihlong ihshort =>
    have hrow : x.instructionAt a = Instruction.text w (some v) := by
      rw [← ha, instructionAt_append h]
      rfl
    rw [Instruction.rows, flatMap_cons, hrow]
    split
    · have hlong : x.code.toList = (before ++ [w, v]) ++ rest := by simpa using h
      rw [ihlong hlong (by simp [ha])]
    · have hshort : x.code.toList = (before ++ [w]) ++ v :: rest := by simpa using h
      rw [ihshort hshort (by simp [ha])]

/-- The listing of a program is the instructions at the addresses that it shows. -/
theorem listing_eq (x : Executable) :
    x.listing = x.starts.flatMap fun a => Instruction.row a (x.instructionAt a) :=
  rows_eq (nil_append _).symm rfl

end Executable

/-! ### Listings of assembly -/

theorem Opcode.hasOperandOf_code (o : Opcode) :
    Opcode.hasOperandOf (Int64.ofNat o.code) = o.hasOperand := by
  rw [hasOperandOf, ofWord?_code]

/-- A line that fills cells is listed under the address of the first one. -/
theorem Line.starts_cells {known : List Label} {x : Line} (h : x.Sound known) (f : Label → Nat)
    (a : Nat) (ws : List Word) : Instruction.starts a (x.cells f ++ ws) =
      (if x.width = 0 then [] else [a]) ++ Instruction.starts (a + x.width) ws := by
  have htwo : ∀ (o : Opcode) (v : Word), o.hasOperand = true →
      Instruction.starts a (Int64.ofNat o.code :: v :: ws) =
        a :: Instruction.starts (a + 2) ws := by
    intro o v ho
    rw [Instruction.starts, Opcode.hasOperandOf_code, if_pos ho]
  cases x with
  | op o =>
    have ho : o.hasOperand = false := h
    cases ws with
    | nil => rfl
    | cons v ws =>
      show Instruction.starts a (Int64.ofNat o.code :: v :: ws) = _
      rw [Instruction.starts, Opcode.hasOperandOf_code, ho]
      rfl
  | push n => exact htwo .push _ rfl
  | pushLabel s => cases s <;> exact htwo .push _ rfl
  | branch b l => exact htwo b.opcode _ (by cases b <;> rfl)
  | mark l => rfl

/-- A line that fills cells starts, in a listing, where the lines before it end. -/
theorem Line.mem_starts {known : List Label} {before k : List Line} {x : Line}
    (hs : ∀ y ∈ before ++ x :: k, y.Sound known) (hx : x.width ≠ 0) (f : Label → Nat) (a : Nat) :
    a + Line.extent before ∈ Instruction.starts a ((before ++ x :: k).flatMap (Line.cells f)) := by
  induction before generalizing a with
  | nil =>
    rw [nil_append, flatMap_cons, starts_cells (hs x (by simp)), if_neg hx]
    simp
  | cons y before ih =>
    rw [cons_append, flatMap_cons, starts_cells (hs y (by simp)), extent_cons,
      ← Nat.add_assoc]
    exact mem_append_right _ (ih (forall_mem_cons.mp hs).2 _)

/-- Every instruction of assembly that can be assembled is listed under its own address. -/
theorem Listed.listsIp {P : Setup} {m : Machine} {x : Executable} (h : Listed P m)
    (hs : Line.Linkable P.lines) (hx : x.code = P.code) : x.ListsIp m := by
  obtain ⟨y, k, ⟨before, hbefore⟩, hy, hip⟩ := h
  refine ⟨_, ?_, hip⟩
  have hsound : ∀ z ∈ before ++ y :: k, z.Sound (Line.marks P.lines) := hbefore ▸ hs.sound
  have hmem := Line.mem_starts hsound hy (fun l => Line.address l P.lines) 0
  rw [hbefore, Nat.zero_add] at hmem
  rw [Executable.starts, hx, P.code_eq, ← hbefore, Line.place, Line.extent_append,
    Nat.add_sub_cancel]
  rw [hbefore]
  exact hmem

end Foolscap
