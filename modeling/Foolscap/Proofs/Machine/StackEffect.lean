import Foolscap.Proofs.Machine.InRange

/-!
# The recorded effects of instructions

The table of instructions records by how much each of them lengthens the stack and whether an
operand follows it.  Traces, listings and the assembler rely on that table, while the machine does
not look at it.  Here the two are compared, in any state of the machine.

## Design Notes

An instruction is a few pops followed by at most one push or store.  The lemmas on the effects say
which machine each of them leaves; instructions with the same effects are dealt with at once.
-/

namespace Foolscap

/-- The instructions that end with a push. -/
def Opcode.pushes : Opcode → Bool
  | .push | .add | .sub | .mult | .div | .lw | .lra | .ltm | .lfp | .lhp => true
  | _ => false

namespace Machine

/-- The instruction does not go on behind itself: a jump never does, and a branch does not if the
two values on top of the stack pass its test. -/
def Leaves (m : Machine) : Opcode → Prop
  | .b | .js => True
  | .beq => ∃ u v, m.memory[m.sp]? = some v ∧ m.memory[m.sp + 1]? = some u ∧ u = v
  | .bleq => ∃ u v, m.memory[m.sp]? = some v ∧ m.memory[m.sp + 1]? = some u ∧ u ≤ v
  | _ => False

/-- Where an instruction goes that does not go on behind itself: to the address on top of the
stack, or to the one in its operand, which is -1 behind the end of the code. -/
def destination (code : Array Word) (m : Machine) : Opcode → Word
  | .js => m.top?.getD 0
  | _ => code[m.ip.toNatClampNeg + 1]?.getD (-1)

/-- The memory cell that an instruction can change on the way from one machine to another: the one
whose address is on top of the stack, or the one that is pushed. -/
def MayChange (o : Opcode) (m m' : Machine) (i : Nat) : Prop :=
  if o = .sw then ∃ addr, m.top? = some addr ∧ addr.toInt = i else o.pushes ∧ i = m'.sp

/-- At most one memory cell has changed, and that is one of some cells. -/
def ChangesOneOf (P : Nat → Prop) (m m' : Machine) : Prop :=
  m'.memory.size = m.memory.size ∧ ∃ i, (∀ j, j ≠ i → m'.memory[j]? = m.memory[j]?) ∧
    (m'.memory[i]? ≠ m.memory[i]? → P i)

/-- On the way from one machine to another, an instruction did what is recorded of it. -/
structure Recorded (code : Array Word) (o : Opcode) (m m' : Machine) : Prop where
  /-- The stack grows down, by as much as is recorded. -/
  height : (m'.sp : Int) = m.sp - o.stackEffect
  /-- The next instruction is behind this one, and behind its operand if it has one that is
  there. -/
  next : ¬ m.Leaves o → m'.ip.toInt = m.ip.toInt +
    if o.hasOperand ∧ m.ip.toInt + 1 < code.size then 2 else 1
  jumped : m.Leaves o → m'.ip = m.destination code o
  memory : ChangesOneOf (MayChange o m m') m m'

/-! ### Effects that do not go wrong -/

section Effects

variable {α β : Type} {m m' : Machine} {w : Word}

theorem of_bind_eq_ok {e : Effect α} {f : α → Effect β} {y : β} (h : (e >>= f) m = .ok y m') :
    ∃ x m₁, e m = .ok x m₁ ∧ f x m₁ = .ok y m' := by
  change EStateM.bind e f m = _ at h
  unfold EStateM.bind at h
  cases he : e m with
  | ok x m₁ =>
    rw [he] at h
    exact ⟨x, m₁, rfl, h⟩
  | error t m₁ =>
    rw [he] at h
    cases h

theorem of_pop_eq_ok (h : pop m = .ok w m') : m.top? = some w ∧ m' = { m with sp := m.sp + 1 } := by
  rw [pop] at h
  rw [top?]
  split at h
  · next u hu =>
    cases h
    exact ⟨hu, rfl⟩
  · cases h

theorem of_push_eq_ok (h : push w m = .ok () m') : 0 < m.sp ∧ m' = m.pushed w := by
  rw [push] at h
  split at h
  · cases h
  · cases h
    exact ⟨by omega, rfl⟩

theorem of_popTo_eq_ok {set : Machine → Word → Machine} (h : popTo set m = .ok () m') :
    ∃ w, m' = set { m with sp := m.sp + 1 } w := by
  rw [popTo] at h
  split at h
  · next w m₁ hpop =>
    cases h
    obtain ⟨-, rfl⟩ := of_pop_eq_ok hpop
    exact ⟨w, rfl⟩
  · cases h

theorem of_load_eq_ok {addr : Word} (h : load addr m = .ok w m') : m' = m := by
  rw [load] at h
  split at h
  · cases h
    rfl
  · cases h

theorem of_store_eq_ok {addr : Word} (h : store addr w m = .ok () m') :
    0 ≤ addr ∧ m' = { m with memory := m.memory.setIfInBounds addr.toNatClampNeg w } := by
  rw [store] at h
  split at h
  · next hguard =>
    cases h
    rw [Bool.and_eq_true, decide_eq_true_eq] at hguard
    exact ⟨hguard.1, rfl⟩
  · cases h

theorem of_setHeap_eq_ok {addr : Word} (h : setHeap addr m = .ok () m') :
    ∃ hp, m' = { m with hp := hp } := by
  rw [setHeap] at h
  split at h
  · cases h
  split at h
  · cases h
  · cases h
    exact ⟨_, rfl⟩

theorem of_print_eq_ok (h : print m = .ok () m') : ∃ ws, m' = { m with printed := ws } := by
  rw [print] at h
  split at h
  · cases h
    exact ⟨_, rfl⟩
  · cases h

theorem of_arithmetic_eq_ok {f : Word → Word → Word} (h : arithmetic f m = .ok () m') :
    ∃ w, m' = { m with sp := m.sp + 1, memory := m.memory.setIfInBounds (m.sp + 1) w } := by
  obtain ⟨v, m₁, hv, h⟩ := of_bind_eq_ok h
  obtain ⟨u, m₂, hu, h⟩ := of_bind_eq_ok h
  obtain ⟨-, rfl⟩ := of_pop_eq_ok hv
  obtain ⟨-, rfl⟩ := of_pop_eq_ok hu
  exact ⟨_, (of_push_eq_ok h).2⟩

/-- Division does what the other operations do, unless it goes wrong. -/
theorem arithmetic_of_divide_eq_ok (h : divide m = .ok () m') :
    arithmetic (fun u v => u / v) m = .ok () m' := by
  obtain ⟨v, m₁, hv, h⟩ := of_bind_eq_ok h
  obtain ⟨u, m₂, hu, h⟩ := of_bind_eq_ok h
  split at h
  · cases h
  · show EStateM.bind pop _ m = _
    rw [EStateM.bind, hv]
    show EStateM.bind pop _ m₁ = _
    rw [EStateM.bind, hu]
    exact h

end Effects

/-! ### The memory -/

section Memory

variable {P : Nat → Prop} {m m' : Machine}

theorem ChangesOneOf.of_eq (h : m'.memory = m.memory) : ChangesOneOf P m m' := by
  rw [ChangesOneOf, h]
  exact ⟨rfl, 0, fun _ _ => rfl, fun hne => absurd rfl hne⟩

theorem ChangesOneOf.of_set {i : Nat} {w : Word} (h : m'.memory = m.memory.setIfInBounds i w)
    (hi : P i) : ChangesOneOf P m m' := by
  rw [ChangesOneOf, h]
  refine ⟨Array.size_setIfInBounds, i, fun j hj => ?_, fun _ => hi⟩
  rw [Array.getElem?_setIfInBounds_ne hj.symm]

theorem MayChange.of_pushes {o : Opcode} (ho : o.pushes) : MayChange o m m' m'.sp := by
  have hsw : o ≠ .sw := by rintro rfl; cases ho
  rw [MayChange, if_neg hsw]
  exact ⟨ho, rfl⟩

end Memory

/-! ### Instructions -/

section Instructions

variable {code : Array Word} {o : Opcode} {m m' : Machine} {n : Nat}

/-- What the operand of an instruction is, and where the machine goes on. -/
theorem of_operand_eq_ok {w : Word} (hcode : code.size < Word.limit) (hn : n < code.size)
    (hip : m.ip = Int64.ofNat n) (h : operand code m.fetched = .ok w m') :
    w = code[m.ip.toNatClampNeg + 1]?.getD (-1) ∧
      ∃ ip, m' = { m.fetched with ip := ip } ∧
        ip.toInt = m.ip.toInt + if m.ip.toInt + 1 < code.size then 2 else 1 := by
  have hnext : m.ip + 1 = Int64.ofNat (n + 1) := by rw [hip, Word.ofNat_succ]
  have hlimit : n + 1 < Word.limit := Nat.lt_of_le_of_lt hn hcode
  have hlt : n < Word.limit := Nat.lt_of_succ_lt hlimit
  rw [operand, show m.fetched.ip = m.ip + 1 from rfl, hnext, Word.toNatClampNeg_ofNat hlimit] at h
  rw [hip, Word.toNatClampNeg_ofNat hlt, Int64.toInt_ofNat_of_lt hlt]
  split at h
  · next u hu =>
    cases h
    have hthere := (Array.getElem?_eq_some_iff.mp hu).1
    refine ⟨by rw [hu]; rfl, _, rfl, ?_⟩
    rw [Word.ofNat_succ, Int64.toInt_ofNat_of_lt (Nat.lt_of_le_of_lt hthere hcode)]
    rw [if_pos (by omega)]
    omega
  · next hnone =>
    cases h
    have hgone := Array.getElem?_eq_none_iff.mp hnone
    refine ⟨by rw [hnone]; rfl, m.ip + 1, rfl, ?_⟩
    rw [hnext, Int64.toInt_ofNat_of_lt hlimit, if_neg (by omega)]
    omega

section

variable (hn : n + 1 < Word.limit)

include hn

/-- An instruction without operand that does not jump. -/
theorem Recorded.of_plain (hip : m.ip = Int64.ofNat n) (ho : o.hasOperand = false)
    (hstays : ¬ m.Leaves o) (hnext : m'.ip = m.ip + 1)
    (hsp : (m'.sp : Int) = m.sp - o.stackEffect) (hmemory : ChangesOneOf (MayChange o m m') m m') :
    Recorded code o m m' where
  height := hsp
  next _ := by
    rw [hnext, hip, Word.ofNat_succ, Int64.toInt_ofNat_of_lt hn,
      Int64.toInt_ofNat_of_lt (Nat.lt_of_succ_lt hn)]
    simp [ho]
  jumped h := absurd h hstays
  memory := hmemory

/-- An instruction that pushes a register. -/
theorem Recorded.of_push {w : Word} (hip : m.ip = Int64.ofNat n) (hplain : o.hasOperand = false)
    (hstays : ¬ m.Leaves o) (hpushes : o.pushes) (heffect : o.stackEffect = 1)
    (h : push w m.fetched = .ok () m') : Recorded code o m m' := by
  obtain ⟨hpos, rfl⟩ := of_push_eq_ok h
  replace hpos : 0 < m.sp := hpos
  refine .of_plain hn hip hplain hstays rfl ?_ (.of_set rfl (.of_pushes hpushes))
  show ((m.sp - 1 : Nat) : Int) = _
  rw [heffect]
  omega

/-- An instruction that pops a register. -/
theorem Recorded.of_popTo {set : Machine → Word → Machine} (hip : m.ip = Int64.ofNat n)
    (hplain : o.hasOperand = false) (hstays : ¬ m.Leaves o) (heffect : o.stackEffect = -1)
    (h : popTo set m.fetched = .ok () m')
    (hset : ∀ m w, (set m w).ip = m.ip ∧ (set m w).sp = m.sp ∧ (set m w).memory = m.memory) :
    Recorded code o m m' := by
  obtain ⟨w, rfl⟩ := of_popTo_eq_ok h
  obtain ⟨hnext, hsp, hmemory⟩ := hset { m.fetched with sp := m.sp + 1 } w
  refine .of_plain hn hip hplain hstays hnext ?_ (.of_eq hmemory)
  rw [show (m.fetched.sp) = m.sp from rfl, hsp, heffect]
  show ((m.sp + 1 : Nat) : Int) = _
  omega

/-- An arithmetic instruction. -/
theorem Recorded.of_arithmetic {f : Word → Word → Word} (hip : m.ip = Int64.ofNat n)
    (hplain : o.hasOperand = false) (hstays : ¬ m.Leaves o) (hpushes : o.pushes)
    (heffect : o.stackEffect = -1) (h : arithmetic f m.fetched = .ok () m') :
    Recorded code o m m' := by
  obtain ⟨w, rfl⟩ := of_arithmetic_eq_ok h
  refine .of_plain hn hip hplain hstays rfl ?_ (.of_set rfl (.of_pushes hpushes))
  show ((m.sp + 1 : Nat) : Int) = _
  rw [heffect]
  omega

end

/-- A branch.  It reads its operand before it looks at the stack. -/
theorem Recorded.of_branchIf {test : Word → Word → Bool} (hcode : code.size < Word.limit)
    (hn : n < code.size) (hip : m.ip = Int64.ofNat n) (hoperand : o.hasOperand)
    (heffect : o.stackEffect = -2) (hjs : o ≠ .js)
    (hleaves : m.Leaves o ↔
      ∃ u v, m.memory[m.sp]? = some v ∧ m.memory[m.sp + 1]? = some u ∧ test u v)
    (h : branchIf code test m.fetched = .ok () m') : Recorded code o m m' := by
  obtain ⟨target, m₁, htarget, h⟩ := of_bind_eq_ok h
  obtain ⟨v, m₂, hpop, h⟩ := of_bind_eq_ok h
  obtain ⟨u, m₃, hpop', h⟩ := of_bind_eq_ok h
  obtain ⟨rfl, ip, rfl, hnext⟩ := of_operand_eq_ok hcode hn hip htarget
  obtain ⟨hv, rfl⟩ := of_pop_eq_ok hpop
  obtain ⟨hu, rfl⟩ := of_pop_eq_ok hpop'
  replace hv : m.memory[m.sp]? = some v := hv
  replace hu : m.memory[m.sp + 1]? = some u := hu
  have htaken : m.Leaves o ↔ test u v := by
    rw [hleaves, hv, hu]
    simp
  have hsp : ((m.sp + 1 + 1 : Nat) : Int) = m.sp - o.stackEffect := by
    rw [heffect]
    omega
  by_cases htest : test u v = true
  · rw [if_pos htest] at h
    cases h
    refine ⟨hsp, fun hstays => absurd (htaken.mpr htest) hstays, fun _ => ?_, .of_eq rfl⟩
    rw [destination.eq_2 code m o hjs]
  · rw [if_neg htest] at h
    cases h
    refine ⟨hsp, fun _ => ?_, fun hgoes => absurd (htaken.mp hgoes) htest, .of_eq rfl⟩
    simpa only [hoperand, true_and] using hnext

/-- Every instruction that does not go wrong does what is recorded of it. -/
theorem execute_recorded (hcode : code.size < Word.limit) (hn : n < code.size)
    (hip : m.ip = Int64.ofNat n) (h : execute code o m.fetched = .ok () m') :
    Recorded code o m m' := by
  have hlimit : n + 1 < Word.limit := Nat.lt_of_le_of_lt hn hcode
  cases o with
  | push =>
    obtain ⟨w, m₁, hoperand, h⟩ := of_bind_eq_ok h
    obtain ⟨-, ip, rfl, hnext⟩ := of_operand_eq_ok hcode hn hip hoperand
    obtain ⟨hpos, rfl⟩ := of_push_eq_ok h
    replace hpos : 0 < m.sp := hpos
    refine ⟨?_, fun _ => ?_, False.elim, .of_set rfl (.of_pushes rfl)⟩
    · show ((m.sp - 1 : Nat) : Int) = m.sp - 1
      omega
    · show ip.toInt = _
      simpa [Opcode.hasOperand] using hnext
  | pop =>
    obtain ⟨w, m₁, hpop, h⟩ := of_bind_eq_ok h
    obtain ⟨-, rfl⟩ := of_pop_eq_ok hpop
    cases h
    refine .of_plain hlimit hip rfl id rfl ?_ (.of_eq rfl)
    show ((m.sp + 1 : Nat) : Int) = m.sp - -1
    omega
  | add | sub | mult => exact .of_arithmetic hlimit hip rfl id rfl rfl h
  | div => exact .of_arithmetic hlimit hip rfl id rfl rfl (arithmetic_of_divide_eq_ok h)
  | sw =>
    obtain ⟨addr, m₁, hpop, h⟩ := of_bind_eq_ok h
    obtain ⟨w, m₂, hpop', h⟩ := of_bind_eq_ok h
    obtain ⟨htop, rfl⟩ := of_pop_eq_ok hpop
    obtain ⟨-, rfl⟩ := of_pop_eq_ok hpop'
    obtain ⟨hnonneg, rfl⟩ := of_store_eq_ok h
    refine .of_plain hlimit hip rfl id rfl ?_ (.of_set rfl ?_)
    · show ((m.sp + 1 + 1 : Nat) : Int) = m.sp - -2
      omega
    · rw [MayChange, if_pos rfl]
      refine ⟨addr, htop, ?_⟩
      rw [Int64.le_iff_toInt_le, Int64.toInt_zero] at hnonneg
      exact (Int.toNat_of_nonneg hnonneg).symm
  | lw =>
    obtain ⟨addr, m₁, hpop, h⟩ := of_bind_eq_ok h
    obtain ⟨w, m₂, hload, h⟩ := of_bind_eq_ok h
    obtain ⟨-, rfl⟩ := of_pop_eq_ok hpop
    obtain rfl := of_load_eq_ok hload
    obtain ⟨-, rfl⟩ := of_push_eq_ok h
    refine .of_plain hlimit hip rfl id rfl ?_ (.of_set rfl (.of_pushes rfl))
    show ((m.sp + 1 - 1 : Nat) : Int) = m.sp - 0
    omega
  | b =>
    obtain ⟨target, m₁, hoperand, h⟩ := of_bind_eq_ok h
    obtain ⟨rfl, ip, rfl, -⟩ := of_operand_eq_ok hcode hn hip hoperand
    cases h
    exact ⟨(Int.sub_zero _).symm, fun hstays => absurd trivial hstays, fun _ => rfl, .of_eq rfl⟩
  | beq | bleq => exact .of_branchIf hcode hn hip rfl rfl (by decide) (by simp [Leaves]) h
  | js =>
    obtain ⟨addr, m₁, hpop, h⟩ := of_bind_eq_ok h
    obtain ⟨htop, rfl⟩ := of_pop_eq_ok hpop
    replace htop : m.top? = some addr := htop
    cases h
    refine ⟨?_, fun hstays => absurd trivial hstays, fun _ => ?_, .of_eq rfl⟩
    · show ((m.sp + 1 : Nat) : Int) = m.sp - -1
      omega
    · rw [destination, htop]
      rfl
  | lra | ltm | lfp | lhp => exact .of_push hlimit hip rfl id rfl rfl h
  | sra | stm | sfp => exact .of_popTo hlimit hip rfl id rfl h fun _ _ => ⟨rfl, rfl, rfl⟩
  | cfp =>
    cases h
    exact .of_plain hlimit hip rfl id rfl (Int.sub_zero _).symm (.of_eq rfl)
  | shp =>
    obtain ⟨addr, m₁, hpop, h⟩ := of_bind_eq_ok h
    obtain ⟨-, rfl⟩ := of_pop_eq_ok hpop
    obtain ⟨hp, rfl⟩ := of_setHeap_eq_ok h
    refine .of_plain hlimit hip rfl id rfl ?_ (.of_eq rfl)
    show ((m.sp + 1 : Nat) : Int) = m.sp - -1
    omega
  | print =>
    obtain ⟨ws, rfl⟩ := of_print_eq_ok h
    exact .of_plain hlimit hip rfl id rfl (Int.sub_zero _).symm (.of_eq rfl)
  | halt =>
    cases h
    exact .of_plain hlimit hip rfl id rfl (Int.sub_zero _).symm (.of_eq rfl)

end Instructions

/-- **The table of instructions tells the truth.**  In any state of the machine, with any code, an
instruction that is executed without a fault, halting included,

* moves the stack pointer by the recorded effect;
* goes on one cell further, or two exactly if an operand is recorded and there, unless it is a jump
  or a branch that is taken, and these go where they are told to;
* changes at most one memory cell: a store the one at the address that it pops, and any other
  instruction only one that it pushes.

The length of the code is one that a register can hold. -/
theorem step_recorded {code : Array Word} {m m' : Machine} (hcode : code.size < Word.limit)
    (h : m.step code = .running m' ∨ m.step code = .halted m') :
    ∃ w o, fetch? code m.ip = some w ∧ Opcode.ofWord? w = some o ∧ Recorded code o m m' := by
  have hexecuted : ∀ {o : Opcode}, fetch? code m.ip = some (Int64.ofNat o.code) →
      execute code o m.fetched = .ok () m' → Recorded code o m m' := by
    intro o hw hr
    obtain ⟨hneg, hcell⟩ := fetch?_eq_some_iff.mp hw
    obtain ⟨n, hn, hip⟩ := Word.exists_ofNat hneg
    rw [hip, Word.toNatClampNeg_ofNat hn] at hcell
    exact execute_recorded hcode (Array.getElem?_eq_some_iff.mp hcell).1 hip hr
  rcases step_cases code m with ⟨-, hstep⟩ | ⟨w, -, -, hstep⟩ | ⟨hw, hstep⟩ | ⟨o, -, hw, hstep⟩ <;>
    rw [hstep] at h
  · rcases h with h | h <;> cases h
  · rcases h with h | h <;> cases h
  · rcases h with h | h <;> cases h
    exact ⟨_, .halt, hw, Opcode.ofWord?_code _, hexecuted hw rfl⟩
  · cases hr : execute code o m.fetched with
    | ok x m₁ =>
      rw [hr] at h
      rcases h with h | h <;> cases h
      exact ⟨_, o, hw, Opcode.ofWord?_code o, hexecuted hw hr⟩
    | error f m₁ =>
      rw [hr] at h
      rcases h with h | h <;> cases h

/-- A store into the very cell that it has popped its address from, and a push at the end of the
code, where its operand is missing. -/
theorem step_recorded_aliasing :
    (∃ m', step #[0x10] { memory := #[0, 1, 7], sp := 1, hp := 1 } = .running m' ∧
      m'.memory = #[0, 7, 7] ∧ Recorded #[0x10] .sw { memory := #[0, 1, 7], sp := 1, hp := 1 } m') ∧
    ∃ m', step #[0x01] { memory := #[0, 0], sp := 2, hp := 1 } = .running m' ∧
      m'.memory = #[0, -1] ∧ Recorded #[0x01] .push { memory := #[0, 0], sp := 2, hp := 1 } m' := by
  refine ⟨⟨_, rfl, rfl, ?_⟩, _, rfl, rfl, ?_⟩
  · obtain ⟨w, o, hw, ho, hrecorded⟩ := @step_recorded #[0x10]
      { memory := #[0, 1, 7], sp := 1, hp := 1 } _ (by decide) (.inl rfl)
    cases hw
    cases ho
    exact hrecorded
  · obtain ⟨w, o, hw, ho, hrecorded⟩ := @step_recorded #[0x01]
      { memory := #[0, 0], sp := 2, hp := 1 } _ (by decide) (.inl rfl)
    cases hw
    cases ho
    exact hrecorded

end Machine

end Foolscap
