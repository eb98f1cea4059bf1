import Foolscap.Proofs.Assembly.Linked
import Foolscap.Proofs.Machine.Activation
import Foolscap.Proofs.Word

/-!
# Machines as configurations

Between two lines of assembly a machine is what its two lists of live cells and its registers are.
A configuration says that much: the lines still ahead instead of the instruction pointer, the stack
from its top down, the heap from its bottom up.

## Design Notes

Cells between the heap and the stack are not part of a configuration, so popped values need no
care.  Stack cells are told by the tail of the stack that they start, because that does not change
while values are pushed and popped above them.
-/

namespace Foolscap

open Line List

/-- Assembly, the cells that it is linked to, and the size of a memory.  The two limits bound the
stack and the heap of the runs that are looked at. -/
structure Setup where
  lines : List Line
  code : Array Word
  size : Nat
  stackLimit : Nat
  heapLimit : Nat
  code_eq : code.toList = Line.linked lines
  marks_nodup : (Line.marks lines).Nodup
  extent_lt : Line.extent lines < Word.limit
  size_lt : size < Word.limit

theorem Setup.place_lt (P : Setup) (k : List Line) : place P.lines k < Word.limit :=
  Nat.lt_of_le_of_lt (place_le_extent _ _) P.extent_lt

/-- The first cell of a line is fetched from its place. -/
theorem Setup.fetch?_place (P : Setup) {x : Line} {k : List Line} {w : Word} {ws : List Word}
    (hs : x :: k <:+ P.lines) (hx : x.cells (fun l => address l P.lines) = w :: ws) :
    Machine.fetch? P.code (Int64.ofNat (place P.lines (x :: k))) = some w := by
  have hlt := P.place_lt (x :: k)
  rw [Machine.fetch?, if_neg (Word.ofNat_not_neg hlt), Word.toNatClampNeg_ofNat hlt,
    ← Array.getElem?_toList, P.code_eq]
  exact linked_at_head hs hx

/-- The live part of a machine: the lines ahead, the stack from its top, the heap from its bottom,
the frame pointer as an address, two registers and the numbers printed. -/
structure Config where
  code : List Line
  stack : List Word
  heap : List Word
  fp : Nat
  ra : Word
  tm : Word
  printed : List Word

/-- The live cell at an address: a cell of the heap, or the top of a tail of the stack, whose bottom
is at the end of the memory. -/
def Cell (size : Nat) (heap stack : List Word) (a : Nat) (w : Word) : Prop :=
  heap[a]? = some w ∨ ∃ T, w :: T <:+ stack ∧ a + (T.length + 1) = size

namespace Cell

variable {size a : Nat} {heap stack : List Word} {w : Word}

theorem mono {heap' stack' : List Word} (h : Cell size heap stack a w) (hh : heap <+: heap')
    (hs : stack <:+ stack') : Cell size heap' stack' a w := by
  cases h with
  | inl h =>
    obtain ⟨more, rfl⟩ := hh
    have ha : a < heap.length := (List.getElem?_eq_some_iff.mp h).1
    exact .inl (by rw [List.getElem?_append_left ha, h])
  | inr h =>
    obtain ⟨T, hT, ha⟩ := h
    exact .inr ⟨T, hT.trans hs, ha⟩

theorem of_suffix {T : List Word} (h : w :: T <:+ stack) (ha : a + (T.length + 1) = size) :
    Cell size heap stack a w := .inr ⟨T, h, ha⟩

/-- The cells of a memory from an address on, as a stack. -/
theorem of_drop {memory : Array Word} {b : Nat} (hb : b ≤ a) (hw : memory[a]? = some w) :
    Cell memory.size heap (memory.toList.drop b) a w := by
  obtain ⟨hlt, rfl⟩ := Array.getElem?_eq_some_iff.mp hw
  have hsuffix := drop_suffix_drop_left memory.toList hb
  rw [drop_eq_getElem_cons (by rw [Array.length_toList]; exact hlt),
    Array.getElem_toList] at hsuffix
  refine of_suffix hsuffix ?_
  rw [length_drop, Array.length_toList]
  omega

end Cell

/-! ### Steps -/

namespace Machine

/-- The machine that has fetched an instruction. -/
def fetched (m : Machine) : Machine := { m with current := m.ip.toNatClampNeg, ip := m.ip + 1 }

/-- The machine with one more word on its stack. -/
def pushed (m : Machine) (w : Word) : Machine :=
  { m with sp := m.sp - 1, memory := m.memory.setIfInBounds (m.sp - 1) w }

/-- The outcome of a step, given the effect of its instruction. -/
def settle : EStateM.Result Fault Machine Unit → Outcome
  | .ok _ m => .running m
  | .error f m => .failed f m

variable {code : Array Word} {m : Machine}

theorem step_eq_settle {o : Opcode} (hf : fetch? code m.ip = some (Int64.ofNat o.code))
    (ho : o ≠ .halt) : step code m = settle (execute code o m.fetched) := by
  unfold step
  rw [hf]
  simp only [Opcode.ofWord?_code]
  cases o with
  | halt => exact absurd rfl ho
  | _ =>
    simp only [fetched]
    split <;> next hx => rw [hx, settle]

theorem step_eq_halted (hf : fetch? code m.ip = some (Int64.ofNat Opcode.halt.code)) :
    step code m = .halted m.fetched := by
  unfold step
  rw [hf]
  simp only [Opcode.ofWord?_code]
  rfl

end Machine

/-- A machine is in a configuration. -/
structure Holds (P : Setup) (m : Machine) (c : Config) : Prop where
  code_suffix : c.code <:+ P.lines
  ip_eq : m.ip = Int64.ofNat (Line.place P.lines c.code)
  size_eq : m.memory.size = P.size
  sp_eq : m.sp + c.stack.length = P.size
  hp_eq : m.hp = c.heap.length
  hp_le : m.hp ≤ m.sp
  stack_eq : ∀ (i : Nat) (w : Word), c.stack[i]? = some w → m.memory[m.sp + i]? = some w
  heap_eq : ∀ (i : Nat) (w : Word), c.heap[i]? = some w → m.memory[i]? = some w
  fp_eq : m.fp = Int64.ofNat c.fp
  ra_eq : m.ra = c.ra
  tm_eq : m.tm = c.tm
  printed_eq : m.printed = c.printed

namespace Holds

variable {P : Setup} {m : Machine} {c : Config}

/-! ### Effects -/

variable {w : Word} {a : Nat} {k : List Line} {x : Line} {o : Opcode}

section

variable (h : Holds P m c)

include h

theorem top {S : List Word} (hs : c.stack = w :: S) : m.memory[m.sp]? = some w :=
  h.stack_eq 0 w (by simp [hs])

/-- The top of the stack can be popped. -/
theorem pop {S : List Word} (hs : c.stack = w :: S) :
    Machine.pop m = .ok w { m with sp := m.sp + 1 } ∧
      Holds P { m with sp := m.sp + 1 } { c with stack := S } := by
  refine ⟨by rw [Machine.pop, h.top hs], ?_⟩
  have hsp := h.sp_eq
  rw [hs, length_cons] at hsp
  refine { h with sp_eq := ?_, hp_le := ?_, stack_eq := ?_ }
  · show m.sp + 1 + S.length = P.size
    omega
  · show m.hp ≤ m.sp + 1
    exact Nat.le_succ_of_le h.hp_le
  · intro i w' hi
    have := h.stack_eq (i + 1) w' (by simpa [hs] using hi)
    rwa [show m.sp + 1 + i = m.sp + (i + 1) by omega]

/-- A word can be pushed if there is a cell between the heap and the stack. -/
theorem push (hr : m.hp < m.sp) (w : Word) :
    Machine.push w m = .ok () (m.pushed w) ∧
      Holds P (m.pushed w) { c with stack := w :: c.stack } := by
  refine ⟨by rw [Machine.push, if_neg (by omega)]; rfl, ?_⟩
  have hsp := h.sp_eq
  have hsize := h.size_eq
  refine { h with size_eq := ?_, sp_eq := ?_, hp_le := ?_, stack_eq := ?_, heap_eq := ?_ }
  · simpa [Machine.pushed] using hsize
  · show m.sp - 1 + (w :: c.stack).length = P.size
    rw [length_cons]
    omega
  · show m.hp ≤ m.sp - 1
    omega
  · intro i w' hi
    show (m.memory.setIfInBounds (m.sp - 1) w)[m.sp - 1 + i]? = some w'
    cases i with
    | zero =>
      have hlt : m.sp - 1 < m.memory.size := by omega
      simp only [List.getElem?_cons_zero, Option.some.injEq] at hi
      simp [hi, hlt]
    | succ i =>
      have := h.stack_eq i w' (by simpa using hi)
      rw [Array.getElem?_setIfInBounds_ne (by omega), show m.sp - 1 + (i + 1) = m.sp + i by omega]
      exact this
  · intro i w' hi
    have hlt : i < c.heap.length := (List.getElem?_eq_some_iff.mp hi).1
    have hhp := h.hp_eq
    show (m.memory.setIfInBounds (m.sp - 1) w)[i]? = some w'
    rw [Array.getElem?_setIfInBounds_ne (by omega)]
    exact h.heap_eq i w' hi

/-- A live cell can be read. -/
theorem memory_cell (hc : Cell P.size c.heap c.stack a w) : m.memory[a]? = some w := by
  cases hc with
  | inl hc => exact h.heap_eq a w hc
  | inr hc =>
    obtain ⟨T, ⟨above, hT⟩, ha⟩ := hc
    have hsp := h.sp_eq
    rw [← hT, length_append, length_cons] at hsp
    have hi : c.stack[above.length]? = some w := by simp [← hT]
    rw [← h.stack_eq _ _ hi]
    congr 1
    omega

/-- A live cell can be loaded by its address. -/
theorem load (hc : Cell P.size c.heap c.stack a w) : Machine.load (Int64.ofNat a) m = .ok w m := by
  have hm := h.memory_cell hc
  have ha : a < Word.limit := by
    have : a < m.memory.size := (Array.getElem?_eq_some_iff.mp hm).1
    have := h.size_eq
    have := P.size_lt
    omega
  rw [Machine.load, Machine.load?, if_neg (Word.ofNat_not_neg ha),
    Word.toNatClampNeg_ofNat ha, hm]

/-- Jump to another place. -/
theorem jump (hk : k <:+ P.lines) :
    Holds P { m with ip := Int64.ofNat (place P.lines k) } { c with code := k } :=
  { h with code_suffix := hk, ip_eq := rfl }

theorem stack_le : c.stack.length + c.heap.length ≤ P.size := by
  have := h.sp_eq
  have := h.hp_eq
  have := h.hp_le
  omega

/-! ### Beginning a line -/

theorem fetch {ws : List Word} (hc : c.code = x :: k)
    (hx : x.cells (fun l => address l P.lines) = w :: ws) :
    Machine.fetch? P.code m.ip = some w := by
  have hs := h.code_suffix
  rw [hc] at hs
  rw [h.ip_eq, hc]
  exact P.fetch?_place hs hx

/-- The cell before a line, if there is an instruction without operand. -/
theorem fetch_before (ho : .op o :: c.code <:+ P.lines) :
    Machine.fetch? P.code (m.ip - 1) = some (Int64.ofNat o.code) := by
  have hplace : place P.lines c.code = place P.lines (.op o :: c.code) + 1 :=
    place_cons ho
  rw [h.ip_eq, Word.ofNat_pred (by omega), hplace, Nat.add_sub_cancel]
  exact P.fetch?_place ho rfl

/-- The instruction pointer moves on by one cell. -/
theorem ip_succ (hc : c.code = x :: k) : m.ip + 1 = Int64.ofNat (place P.lines (x :: k) + 1) := by
  rw [h.ip_eq, hc, Word.ofNat_succ]

/-- A line without operand: its instruction takes effect with the next line ahead. -/
theorem step_op (hc : c.code = .op o :: k) (ho : o ≠ .halt) :
    Machine.step P.code m = Machine.settle (Machine.execute P.code o m.fetched) ∧
      Holds P m.fetched { c with code := k } := by
  refine ⟨Machine.step_eq_settle (h.fetch hc rfl) ho, ?_⟩
  have hs := h.code_suffix
  rw [hc] at hs
  refine { h with code_suffix := (suffix_cons _ _).trans hs, ip_eq := ?_ }
  show m.ip + 1 = _
  rw [h.ip_succ hc, place_cons hs]
  rfl

/-- A line with an operand: the operand is read, and then the next line is ahead. -/
theorem step_operand (hc : c.code = x :: k)
    (hx : x.cells (fun l => address l P.lines) = [Int64.ofNat o.code, w]) (hw : x.width = 2)
    (ho : o ≠ .halt) :
    Machine.step P.code m = Machine.settle (Machine.execute P.code o m.fetched) ∧
      Machine.operand P.code m.fetched = .ok w { m.fetched with ip := m.fetched.ip + 1 } ∧
      Holds P { m.fetched with ip := m.fetched.ip + 1 } { c with code := k } := by
  have hs := h.code_suffix
  rw [hc] at hs
  have hp := place_cons hs
  rw [hw] at hp
  have hlt : place P.lines (x :: k) + 1 < Word.limit := by
    have := place_le_extent P.lines k
    have := P.extent_lt
    omega
  refine ⟨Machine.step_eq_settle (h.fetch hc hx) ho, ?_, ?_⟩
  · have hop := linked_at_operand hs hx
    rw [← P.code_eq, Array.getElem?_toList] at hop
    unfold Machine.operand
    rw [show m.fetched.ip = m.ip + 1 from rfl, h.ip_succ hc, Word.toNatClampNeg_ofNat hlt, hop]
  · refine { h with code_suffix := (suffix_cons _ _).trans hs, ip_eq := ?_ }
    show m.ip + 1 + 1 = _
    rw [h.ip_succ hc, Word.ofNat_succ, hp]

/-! ### Activations -/

/-- Every line but a jump to an address on the stack stays in its activation. -/
theorem turn_stays (hc : c.code = x :: k) (hx : x.width ≠ 0 ∧ x ≠ .op .js) :
    m.turn P.code = .stays := by
  have hcells : ∃ o ws, x.cells (fun l => address l P.lines) = Int64.ofNat (Opcode.code o) :: ws
      ∧ o ≠ .js := by
    cases x with
    | op o => exact ⟨o, [], rfl, fun ho => hx.2 (by rw [ho])⟩
    | push n => exact ⟨.push, _, rfl, by decide⟩
    | pushLabel s => cases s <;> exact ⟨.push, _, rfl, by decide⟩
    | branch b l => exact ⟨b.opcode, _, rfl, by cases b <;> decide⟩
    | mark l => exact absurd rfl hx.1
  obtain ⟨o, ws, hcells, ho⟩ := hcells
  rw [Machine.turn, h.fetch hc hcells, if_neg]
  intro heq
  have hword := congrArg Opcode.ofWord? (Option.some.inj heq)
  rw [Opcode.ofWord?_code, Opcode.ofWord?_code] at hword
  exact ho (Option.some.inj hword)

/-- A jump to the return address ends an activation. -/
theorem turn_returns (hc : c.code = .op .js :: k) (hbefore : .op .lra :: c.code <:+ P.lines) :
    m.turn P.code = .returns := by
  rw [Machine.turn, h.fetch hc rfl, if_pos rfl, h.fetch_before hbefore, if_pos rfl]

/-- A jump to an address that was loaded begins an activation. -/
theorem turn_calls (hc : c.code = .op .js :: k) (hbefore : .op .lw :: c.code <:+ P.lines) :
    m.turn P.code = .calls := by
  rw [Machine.turn, h.fetch hc rfl, if_pos rfl, h.fetch_before hbefore, if_neg (by decide)]

end

/-! ### Machines as they are -/

/-- A machine between two lines of assembly is in the configuration that its pointers tell. -/
theorem of_machine (hk : k <:+ P.lines) (hip : m.ip = Int64.ofNat (place P.lines k))
    (hsize : m.memory.size = P.size) (hhp : m.hp ≤ m.sp) (hsp : m.sp ≤ P.size) :
    Holds P m ⟨k, m.memory.toList.drop m.sp, m.memory.toList.take m.hp, m.fp.toBitVec.toNat, m.ra,
      m.tm, m.printed⟩ where
  code_suffix := hk
  ip_eq := hip
  size_eq := hsize
  sp_eq := by
    simp only [length_drop, Array.length_toList]
    omega
  hp_eq := by
    simp only [length_take, Array.length_toList]
    omega
  hp_le := hhp
  stack_eq := by
    intro i w hi
    rw [List.getElem?_drop, Array.getElem?_toList] at hi
    exact hi
  heap_eq := by
    intro i w hi
    rw [List.getElem?_take, Array.getElem?_toList] at hi
    split at hi
    · exact hi
    · cases hi
  fp_eq := Word.eq_ofNat m.fp
  ra_eq := rfl
  tm_eq := rfl
  printed_eq := rfl

/-- Cells of another machine that are at the bottom of the stack are where they were. -/
theorem memory_eq_of_suffix {m₀ : Machine} {b : Nat} (h : Holds P m c)
    (hsize : m₀.memory.size = P.size) (hs : m₀.memory.toList.drop b <:+ c.stack) (ha : b ≤ a) :
    m.memory[a]? = m₀.memory[a]? := by
  by_cases hlt : a < m₀.memory.size
  · have hcell : Cell _ c.heap _ _ _ := .of_drop ha (Array.getElem?_eq_getElem hlt)
    rw [hsize] at hcell
    rw [h.memory_cell (hcell.mono prefix_rfl hs), Array.getElem?_eq_getElem hlt]
  · have hsize' := h.size_eq
    rw [Array.getElem?_eq_none (by omega), Array.getElem?_eq_none (by omega)]

/-- Cells of another machine that are at the bottom of the heap are where they were. -/
theorem memory_eq_of_prefix {m₀ : Machine} {b : Nat} (h : Holds P m c)
    (hs : m₀.memory.toList.take b <+: c.heap) (ha : a < b) (hb : b ≤ m₀.memory.size) :
    m.memory[a]? = m₀.memory[a]? := by
  have hlt : a < m₀.memory.size := Nat.lt_of_lt_of_le ha hb
  have hcell : (m₀.memory.toList.take b)[a]? = some m₀.memory[a] := by
    rw [List.getElem?_take_of_lt ha, Array.getElem?_toList, Array.getElem?_eq_getElem hlt]
  rw [h.memory_cell (Cell.mono (.inl hcell) hs suffix_rfl), Array.getElem?_eq_getElem hlt]

end Holds

end Foolscap
