import Foolscap.Proofs.Machine.Bare
import Foolscap.Proofs.Machine.Course
import Foolscap.Proofs.Word

/-!
# Safety of the machine for any code

Whatever words the code consists of, the heap stays below the stack and the stack within the memory,
and no array is indexed outside of its bounds.  So the bare machine, which would crash there, does
what the machine does, and a run ends only with a halt or with a fault that is reported.
-/

namespace Foolscap

open Word

namespace Machine

/-- The heap ends below the stack, which ends at the end of the memory.  The memory can be addressed
by words, and so can the instruction that is executed. -/
structure Bounded (size : Nat) (m : Machine) : Prop where
  hp_le : m.hp ≤ m.sp
  sp_le : m.sp ≤ size
  size_eq : m.memory.size = size
  size_lt : size < Word.limit
  current_lt : m.current < Word.limit

/-- The machine as a bare machine: the two pointers are words. -/
def bare (m : Machine) : Bare :=
  { memory := m.memory
    ip := m.ip
    sp := Int64.ofNat m.sp
    fp := m.fp
    ra := m.ra
    tm := m.tm
    hp := Int64.ofNat m.hp
    current := Int64.ofNat m.current
    printed := m.printed }

/-- The machine that an effect leaves behind, whether it went wrong or not. -/
def left {α : Type} : EStateM.Result Fault Machine α → Machine
  | .ok _ m => m
  | .error _ m => m

/-- The machine that a run comes to. -/
def Outcome.machine : Outcome → Machine
  | .running m => m
  | .halted m => m
  | .failed _ m => m

namespace Bounded

variable {size : Nat} {m : Machine}

theorem sp_lt (h : Bounded size m) : m.sp < limit := Nat.lt_of_le_of_lt h.sp_le h.size_lt

theorem hp_lt (h : Bounded size m) : m.hp < limit := Nat.lt_of_le_of_lt h.hp_le h.sp_lt

theorem memory_lt (h : Bounded size m) : m.memory.size < limit := by
  rw [h.size_eq]
  exact h.size_lt

theorem reset (hm : m.memory.size < limit) (hc : m.current < limit) :
    Bounded m.memory.size m.reset where
  hp_le := Nat.zero_le _
  sp_le := Nat.le_refl _
  size_eq := Array.size_replicate
  size_lt := hm
  current_lt := hc

end Bounded

/-- What is fetched is at an address. -/
theorem fetch?_eq_some_iff {code : Array Word} {ip w : Word} :
    fetch? code ip = some w ↔ ¬ ip < 0 ∧ code[ip.toNatClampNeg]? = some w := by
  rw [fetch?]
  by_cases hneg : ip < 0
  · rw [if_pos hneg]
    exact ⟨by simp, fun h => absurd hneg h.1⟩
  · rw [if_neg hneg]
    exact (and_iff_right hneg).symm

theorem bare_reset (m : Machine) : m.reset.bare = m.bare.reset := rfl

end Machine

namespace Bare

open Machine (Bounded)

/-! ### Arrays at words -/

section Arrays

variable {α : Type} {a : Array α} {i : Word}

/-- In front of the end of an array and not negative, an index is in range. -/
theorem exists_index? (hi : ¬ i < 0) (hlen : ¬ length a ≤ i) :
    ∃ x, index? a i = some x ∧ a[i.toNatClampNeg]? = some x := by
  obtain ⟨n, hn, rfl⟩ := exists_ofNat hi
  have hlt : n < a.size := by
    refine Nat.lt_of_not_le fun hge => hlen ?_
    -- The length is an address here, since it is at most one.
    exact (ofNat_le_ofNat (Nat.lt_of_le_of_lt hge hn) hn).mpr hge
  rw [index?, if_neg hi, toNatClampNeg_ofNat hn]
  exact ⟨a[n], Array.getElem?_eq_getElem hlt, Array.getElem?_eq_getElem hlt⟩

/-- Behind the end of an array there is nothing. -/
theorem getElem?_eq_none (ha : a.size < limit) (hlen : length a ≤ i) :
    a[i.toNatClampNeg]? = none := by
  have hi : ¬ i < 0 := by
    intro hneg
    refine ofNat_not_neg ha ?_
    exact Int64.lt_of_le_of_lt hlen hneg
  obtain ⟨n, hn, rfl⟩ := exists_ofNat hi
  rw [length, ofNat_le_ofNat ha hn] at hlen
  rw [toNatClampNeg_ofNat hn, Array.getElem?_eq_none hlen]

end Arrays

/-! ### Effects -/

/-- The result of an effect, as a bare machine has it. -/
def shown {α : Type} : EStateM.Result Fault Machine α → EStateM.Result Trap Bare α
  | .ok x m => .ok x m.bare
  | .error f m => .error (.fault f) m.bare

/-- From the machines of a precondition, a bare effect does what an effect does, and the machine is
bounded afterwards.  In particular the bare effect does not index outside of an array. -/
structure Follows {α : Type} (size : Nat) (P : Machine → Prop) (b : Effect α)
    (e : Machine.Effect α) : Prop where
  same : ∀ m, P m → b m.bare = shown (e m)
  bounded : ∀ m, P m → Bounded size (Machine.left (e m))

namespace Follows

variable {α β : Type} {size : Nat} {P Q : Machine → Prop} {b : Effect α} {e : Machine.Effect α}

theorem mono (h : Follows size P b e) (hQ : ∀ m, Q m → P m) : Follows size Q b e :=
  ⟨fun m hm => h.same m (hQ m hm), fun m hm => h.bounded m (hQ m hm)⟩

theorem returned (x : α) : Follows size (Bounded size) (pure x) (pure x) :=
  ⟨fun _ _ => rfl, fun _ hm => hm⟩

theorem raised (f : Fault) : Follows size (Bounded size) (throw (.fault f) : Effect α) (throw f) :=
  ⟨fun _ _ => rfl, fun _ hm => hm⟩

/-- A change of the registers. -/
theorem modified {g : Bare → Bare} {f : Machine → Machine}
    (hsame : ∀ m, Bounded size m → g m.bare = (f m).bare)
    (hbounded : ∀ m, Bounded size m → Bounded size (f m)) :
    Follows size (Bounded size) (modify g) (modify f) :=
  ⟨fun m hm => congrArg (EStateM.Result.ok ()) (hsame m hm), hbounded⟩

/-- One effect after the other. -/
theorem bind {g : α → Effect β} {f : α → Machine.Effect β} (h : Follows size P b e)
    (hf : ∀ x, Follows size (Bounded size) (g x) (f x)) : Follows size P (b >>= g) (e >>= f) := by
  constructor
  · intro m hm
    show EStateM.bind b g m.bare = shown (EStateM.bind e f m)
    have hbounded := h.bounded m hm
    unfold EStateM.bind
    rw [h.same m hm]
    cases hr : e m with
    | ok x m' =>
      rw [hr] at hbounded
      exact (hf x).same m' hbounded
    | error t m' => rfl
  · intro m hm
    show Bounded size (Machine.left (EStateM.bind e f m))
    have hbounded := h.bounded m hm
    unfold EStateM.bind
    cases hr : e m with
    | ok x m' =>
      rw [hr] at hbounded
      exact (hf x).bounded m' hbounded
    | error t m' =>
      rw [hr] at hbounded
      exact hbounded

end Follows

theorem get_bind {α : Type} (g : Bare → Effect α) (s : Bare) : (get >>= g) s = g s s := rfl

theorem write_of_lt {s : Bare} {n : Nat} (w : Word) (hs : s.memory.size < limit)
    (hn : n < s.memory.size) :
    write (Int64.ofNat n) w s = .ok () { s with memory := s.memory.setIfInBounds n w } := by
  have hlt : n < limit := Nat.lt_trans hn hs
  have hnonneg : (0 : Word) ≤ Int64.ofNat n := Int64.not_lt.mp (ofNat_not_neg hlt)
  rw [write, toNatClampNeg_ofNat hlt, if_pos]
  rw [Bool.and_eq_true, decide_eq_true_eq, decide_eq_true_eq]
  exact ⟨hnonneg, hn⟩

theorem read_of_getElem? {α : Type} {a : Array α} {n : Nat} {x : α} (hn : n < limit)
    (hx : a[n]? = some x) (s : Bare) : read a (Int64.ofNat n) s = .ok x s := by
  rw [read, index?, if_neg (ofNat_not_neg hn), toNatClampNeg_ofNat hn, hx]
  rfl

section Primitives

variable {size : Nat} {m : Machine}

/-- The bare machine knows whether the stack is empty. -/
theorem length_le_sp (hm : Bounded size m) :
    length m.bare.memory ≤ m.bare.sp ↔ m.memory[m.sp]? = none := by
  show Int64.ofNat m.memory.size ≤ Int64.ofNat m.sp ↔ _
  rw [ofNat_le_ofNat hm.memory_lt hm.sp_lt, Array.getElem?_eq_none_iff]

/-- The bare machine knows whether heap and stack collide.  The word below the stack pointer is
negative if the memory is empty, and so is no address. -/
theorem sp_pred_lt_hp (hm : Bounded size m) : m.bare.sp - 1 < m.bare.hp ↔ m.sp ≤ m.hp := by
  show Int64.ofNat m.sp - 1 < Int64.ofNat m.hp ↔ _
  rcases Nat.eq_zero_or_pos m.sp with hzero | hpos
  · have hhp : m.hp = 0 := Nat.le_zero.mp (hzero ▸ hm.hp_le)
    rw [hzero, hhp]
    decide
  · have hlt : m.sp - 1 < limit := Nat.lt_of_le_of_lt (Nat.sub_le _ _) hm.sp_lt
    rw [ofNat_pred hpos, ofNat_lt_ofNat hlt hm.hp_lt]
    omega

/-- The pointers of the bare machine are in order, and there is a top of the stack unless that is
empty. -/
theorem ordered (hm : Bounded size m) :
    0 ≤ m.bare.hp ∧ m.bare.hp ≤ m.bare.sp ∧ m.bare.sp ≤ length m.bare.memory ∧
      (m.bare.sp ≠ length m.bare.memory → ∃ w, index? m.bare.memory m.bare.sp = some w) := by
  have hle : m.bare.sp ≤ length m.bare.memory := by
    refine (ofNat_le_ofNat hm.sp_lt hm.memory_lt).mpr ?_
    rw [hm.size_eq]
    exact hm.sp_le
  refine ⟨?_, ?_, hle, ?_⟩
  · exact Int64.not_lt.mp (ofNat_not_neg hm.hp_lt)
  · exact (ofNat_le_ofNat hm.hp_lt hm.sp_lt).mpr hm.hp_le
  · intro hne
    have hlt : ¬ length m.bare.memory ≤ m.bare.sp := fun hge => hne (Int64.le_antisymm hle hge)
    obtain ⟨w, hw, -⟩ := exists_index? (ofNat_not_neg hm.sp_lt) hlt
    exact ⟨w, hw⟩

/-- A push compares the stack with the heap, which is never below zero, so the cell that is written
is one of the memory. -/
theorem push_follows (w : Word) : Follows size (Bounded size) (push w) (Machine.push w) := by
  constructor
  · intro m hm
    rw [push, get_bind, Machine.push]
    by_cases hfull : m.sp ≤ m.hp
    · rw [if_pos ((sp_pred_lt_hp hm).mpr hfull), if_pos hfull]
      rfl
    · rw [if_neg (mt (sp_pred_lt_hp hm).mp hfull), if_neg hfull]
      have hsp : m.bare.sp - 1 = Int64.ofNat (m.sp - 1) := ofNat_pred (by omega)
      have hlt : m.sp - 1 < m.memory.size := by
        have := hm.sp_le
        have := hm.size_eq
        omega
      rw [hsp]
      exact write_of_lt (s := { m.bare with sp := Int64.ofNat (m.sp - 1) }) w hm.memory_lt hlt
  · intro m hm
    rw [Machine.push]
    split
    · exact hm
    · next hfull =>
      refine { hm with hp_le := ?_, sp_le := ?_, size_eq := ?_ }
      · exact Nat.le_sub_one_of_lt (Nat.lt_of_not_le hfull)
      · exact Nat.le_trans (Nat.sub_le _ _) hm.sp_le
      · exact Array.size_setIfInBounds.trans hm.size_eq

/-- A pop is compared with the size of the memory, so the cell that is read is one of it. -/
theorem pop_follows : Follows size (Bounded size) pop Machine.pop := by
  constructor
  · intro m hm
    rw [pop, get_bind, Machine.pop]
    cases htop : m.memory[m.sp]? with
    | none =>
      rw [if_pos ((length_le_sp hm).mpr htop)]
      rfl
    | some w =>
      rw [if_neg (fun h => by cases htop.symm.trans ((length_le_sp hm).mp h))]
      show EStateM.bind (read m.memory (Int64.ofNat m.sp)) _ m.bare = _
      rw [EStateM.bind, read_of_getElem? hm.sp_lt htop]
      show EStateM.Result.ok w { m.bare with sp := Int64.ofNat m.sp + 1 } = _
      rw [ofNat_succ]
      rfl
  · intro m hm
    rw [Machine.pop]
    split
    · next w htop =>
      have hlt := (Array.getElem?_eq_some_iff.mp htop).1
      refine { hm with hp_le := ?_, sp_le := ?_ }
      · exact Nat.le_succ_of_le hm.hp_le
      · rw [← hm.size_eq]
        exact hlt
    · exact hm

/-- A value is taken into a register, whether there is one or not. -/
theorem popTo_follows {g : Bare → Word → Bare} {f : Machine → Word → Machine}
    (hsame : ∀ m w, g m.bare w = (f m w).bare)
    (hbounded : ∀ m w, Bounded size m → Bounded size (f m w)) :
    Follows size (Bounded size) (popTo g) (Machine.popTo f) := by
  have hpop : Follows size (Bounded size) pop Machine.pop := pop_follows
  constructor
  · intro m hm
    rw [popTo, Machine.popTo, hpop.same m hm]
    cases Machine.pop m with
    | ok w m' => exact congrArg (EStateM.Result.ok ()) (hsame m' w)
    | error t m' => exact congrArg (EStateM.Result.error (Trap.fault t)) (hsame m' 0)
  · intro m hm
    have hm' := hpop.bounded m hm
    rw [Machine.popTo]
    cases hr : Machine.pop m with
    | ok w m' =>
      rw [hr] at hm'
      exact hbounded m' w hm'
    | error t m' =>
      rw [hr] at hm'
      exact hbounded m' 0 hm'

/-- A load is compared with zero and with the size of the memory before a cell is read. -/
theorem load_follows (addr : Word) :
    Follows size (Bounded size) (load addr) (Machine.load addr) := by
  constructor
  · intro m hm
    rw [load, get_bind, Machine.load, Machine.load?]
    by_cases hneg : addr < 0
    · rw [if_pos (.inl hneg), if_pos hneg]
      rfl
    rw [if_neg hneg]
    by_cases hlen : length m.bare.memory ≤ addr
    · rw [if_pos (.inr hlen), getElem?_eq_none hm.memory_lt hlen]
      rfl
    · obtain ⟨w, hindex, hget⟩ := exists_index? hneg hlen
      rw [if_neg (not_or.mpr ⟨hneg, hlen⟩), read, hindex]
      have hcell : m.memory[addr.toNatClampNeg]? = some w := hget
      rw [hcell]
      rfl
  · intro m hm
    rw [Machine.load]
    split <;> exact hm

/-- A store compares its address with zero and with the size of the memory, so it writes inside of
it. -/
theorem store_follows (addr w : Word) :
    Follows size (Bounded size) (store addr w) (Machine.store addr w) := by
  constructor
  · intro m hm
    rw [store, get_bind, Machine.store]
    by_cases hneg : addr < 0
    · rw [if_pos (.inl hneg), if_neg]
      · rfl
      · simpa using fun h => absurd hneg (Int64.not_lt.mpr h)
    by_cases hlen : length m.bare.memory ≤ addr
    · have hnone := getElem?_eq_none (a := m.memory) hm.memory_lt hlen
      rw [if_pos (.inr hlen), if_neg]
      · rfl
      · rw [Array.getElem?_eq_none_iff] at hnone
        simpa using fun _ => hnone
    · obtain ⟨x, -, hget⟩ := exists_index? hneg hlen
      have hlt := (Array.getElem?_eq_some_iff.mp hget).1
      obtain ⟨n, hn, rfl⟩ := exists_ofNat hneg
      rw [toNatClampNeg_ofNat hn] at hlt ⊢
      rw [if_neg (not_or.mpr ⟨hneg, hlen⟩), write_of_lt w hm.memory_lt hlt, if_pos]
      · rfl
      · rw [Bool.and_eq_true, decide_eq_true_eq, decide_eq_true_eq]
        exact ⟨Int64.not_lt.mp hneg, hlt⟩
  · intro m hm
    rw [Machine.store]
    split
    · exact { hm with size_eq := Array.size_setIfInBounds.trans hm.size_eq }
    · exact hm

/-- The heap pointer is moved here only.  It is compared with the stack before, so the two never
pass each other. -/
theorem setHeap_follows (addr : Word) :
    Follows size (Bounded size) (setHeap addr) (Machine.setHeap addr) := by
  constructor
  · intro m hm
    rw [setHeap, get_bind, Machine.setHeap]
    by_cases hneg : addr < 0
    · rw [if_pos hneg, if_pos hneg]
      rfl
    rw [if_neg hneg, if_neg hneg]
    obtain ⟨n, hn, rfl⟩ := exists_ofNat hneg
    rw [toNatClampNeg_ofNat hn]
    have hguard : m.bare.sp < Int64.ofNat n ↔ m.sp < n := ofNat_lt_ofNat hm.sp_lt hn
    by_cases hlt : m.sp < n
    · rw [if_pos (hguard.mpr hlt), if_pos hlt]
      rfl
    · rw [if_neg (mt hguard.mp hlt), if_neg hlt]
      rfl
  · intro m hm
    rw [Machine.setHeap]
    split
    · exact hm
    split
    · exact hm
    · next hle => exact { hm with hp_le := Nat.le_of_not_lt hle }

/-- Printing looks at the top of the stack if there is one. -/
theorem print_follows : Follows size (Bounded size) print Machine.print := by
  constructor
  · intro m hm
    rw [print, get_bind, Machine.print, Machine.top?]
    cases htop : m.memory[m.sp]? with
    | none =>
      rw [if_pos ((length_le_sp hm).mpr htop)]
      rfl
    | some w =>
      rw [if_neg (fun h => by cases htop.symm.trans ((length_le_sp hm).mp h))]
      show EStateM.bind (read m.memory (Int64.ofNat m.sp)) _ m.bare = _
      rw [EStateM.bind, read_of_getElem? hm.sp_lt htop]
      rfl
  · intro m hm
    rw [Machine.print]
    split
    · exact { hm with }
    · exact hm

theorem jump_follows (addr : Word) : Follows size (Bounded size) (jump addr) (Machine.jump addr) :=
  .modified (fun _ _ => rfl) fun _ hm => { hm with }

/-- The operand is read from behind the instruction, so not from a negative address. -/
theorem operand_follows {code : Array Word} (hcode : code.size < limit) :
    Follows size (fun m => Bounded size m ∧ ¬ m.ip < 0) (operand code) (Machine.operand code) := by
  constructor
  · rintro m ⟨-, hip⟩
    rw [operand, get_bind, Machine.operand]
    by_cases hlen : length code ≤ m.bare.ip
    · have hnone : code[m.ip.toNatClampNeg]? = none := getElem?_eq_none hcode hlen
      rw [if_pos hlen, hnone]
      rfl
    · obtain ⟨w, hindex, hget⟩ := exists_index? (a := code) hip hlen
      rw [if_neg hlen, hget, read, show index? code m.bare.ip = some w from hindex]
      rfl
  · rintro m ⟨hm, -⟩
    rw [Machine.operand]
    split
    · exact { hm with }
    · exact hm

end Primitives

section Instructions

variable {size : Nat} {code : Array Word}

theorem arithmetic_follows (f : Word → Word → Word) :
    Follows size (Bounded size) (arithmetic f) (Machine.arithmetic f) :=
  pop_follows.bind fun v => pop_follows.bind fun u => push_follows (f u v)

theorem divide_follows : Follows size (Bounded size) divide Machine.divide := by
  refine pop_follows.bind fun v => pop_follows.bind fun u => ?_
  split
  · exact .raised .divisionByZero
  · exact push_follows (u / v)

theorem branchIf_follows (hcode : code.size < limit) (test : Word → Word → Bool) :
    Follows size (fun m => Bounded size m ∧ ¬ m.ip < 0) (branchIf code test)
      (Machine.branchIf code test) := by
  refine (operand_follows hcode).bind fun target => pop_follows.bind fun v =>
    pop_follows.bind fun u => ?_
  split
  · exact jump_follows target
  · exact .returned ()

/-- Put a register on the stack. -/
theorem pushRegister_follows {g : Bare → Word} {f : Machine → Word} (h : ∀ m, g m.bare = f m) :
    Follows size (Bounded size) (do push (g (← get))) (do Machine.push (f (← get))) := by
  constructor
  · intro m hm
    rw [get_bind, h m]
    exact (push_follows (f m)).same m hm
  · intro m hm
    show Bounded size (Machine.left (Machine.push (f m) m))
    exact (push_follows (f m)).bounded m hm

/-- Every instruction: the bare machine does what the machine does, also where the instruction goes
wrong halfway. -/
theorem execute_follows (hcode : code.size < limit) (o : Opcode) :
    Follows size (fun m => Bounded size m ∧ ¬ m.ip < 0) (execute code o)
      (Machine.execute code o) := by
  cases o with
  -- These read an operand first, which needs the instruction pointer.
  | push => exact (operand_follows hcode).bind push_follows
  | b => exact (operand_follows hcode).bind jump_follows
  | beq | bleq => exact branchIf_follows hcode _
  -- The others need the two pointers of the memory only.
  | pop => exact (pop_follows.bind fun _ => .returned ()).mono fun _ => And.left
  | add | sub | mult => exact (arithmetic_follows _).mono fun _ => And.left
  | div => exact divide_follows.mono fun _ => And.left
  | sw =>
    refine Follows.mono ?_ fun _ => And.left
    exact pop_follows.bind fun addr => pop_follows.bind fun w => store_follows addr w
  | lw =>
    refine Follows.mono ?_ fun _ => And.left
    exact pop_follows.bind fun addr => (load_follows addr).bind push_follows
  | js =>
    refine Follows.mono ?_ fun _ => And.left
    exact pop_follows.bind fun addr => .modified (fun _ _ => rfl) fun _ hm => { hm with }
  | lra | ltm | lfp | lhp => exact (pushRegister_follows fun _ => rfl).mono fun _ => And.left
  | sra | stm | sfp =>
    refine Follows.mono ?_ fun _ => And.left
    exact popTo_follows (fun _ _ => rfl) fun _ _ hm => { hm with }
  | cfp =>
    refine Follows.mono ?_ fun _ => And.left
    exact .modified (fun _ _ => rfl) fun _ hm => { hm with }
  | shp => exact (pop_follows.bind setHeap_follows).mono fun _ => And.left
  | print => exact print_follows.mono fun _ => And.left
  | halt => exact (Follows.returned ()).mono fun _ => And.left

end Instructions

/-! ### Steps -/

/-- An outcome, as a bare machine has it. -/
def Outcome.ofMachine : Machine.Outcome → Outcome
  | .running m => .running m.bare
  | .halted m => .halted m.bare
  | .failed f m => .failed f m.bare

section Steps

variable {size : Nat} {code : Array Word} {m : Machine}

/-- The bare machine knows whether there is an instruction. -/
theorem isOutside_bare (hcode : code.size < limit) :
    isOutside code m.bare = (Machine.fetch? code m.ip).isNone := by
  unfold isOutside Machine.fetch?
  by_cases hneg : m.ip < 0
  · rw [if_pos hneg, show (decide (m.bare.ip < 0)) = true from decide_eq_true hneg]
    rfl
  rw [if_neg hneg, show (decide (m.bare.ip < 0)) = false from decide_eq_false hneg, Bool.false_or]
  by_cases hlen : length code ≤ m.ip
  · rw [getElem?_eq_none hcode hlen]
    exact decide_eq_true hlen
  · obtain ⟨w, -, hget⟩ := exists_index? hneg hlen
    rw [hget]
    exact decide_eq_false hlen

/-- An effect settles as the bare effect that follows it. -/
theorem settled {b : EStateM.Result Trap Bare Unit} {r : EStateM.Result Fault Machine Unit}
    (hsame : b = shown r) (hbounded : Bounded size (Machine.left r)) :
    settle b = some (.ofMachine (Machine.settle r)) ∧
      Bounded size (Machine.settle r).machine := by
  subst hsame
  cases r with
  | ok x m | error f m => exact ⟨rfl, hbounded⟩

/-- One step of a bounded machine: the bare machine does not crash, does the same, and the machine
is bounded afterwards. -/
theorem step_bare (hcode : code.size < limit) (hm : Bounded size m) :
    m.bare.step code = some (.ofMachine (m.step code)) ∧ Bounded size (m.step code).machine := by
  unfold step Machine.step
  rw [isOutside_bare hcode]
  cases hw : Machine.fetch? code m.ip with
  | none => exact ⟨rfl, hm⟩
  | some w =>
    obtain ⟨hneg, hcell⟩ := Machine.fetch?_eq_some_iff.mp hw
    obtain ⟨n, hn, hip⟩ := exists_ofNat hneg
    have hcur : m.ip.toNatClampNeg = n := by rw [hip, toNatClampNeg_ofNat hn]
    have hlt : n + 1 < limit := by
      have := (Array.getElem?_eq_some_iff.mp hcell).1
      omega
    -- The instruction pointer goes on without wrapping around.
    have hm' : Bounded size m.fetched ∧ ¬ m.fetched.ip < 0 := by
      refine ⟨{ hm with current_lt := ?_ }, ?_⟩
      · show m.ip.toNatClampNeg < _
        omega
      · show ¬ m.ip + 1 < 0
        rw [hip, ofNat_succ]
        exact ofNat_not_neg hlt
    have hbare : { m.bare with current := m.bare.ip, ip := m.bare.ip + 1 } = m.fetched.bare := by
      have hcurrent : m.ip = Int64.ofNat m.ip.toNatClampNeg := by rw [hcur, hip]
      show ({ m.bare with current := m.ip, ip := m.ip + 1 } : Bare) =
        { m.bare with current := Int64.ofNat m.ip.toNatClampNeg, ip := m.ip + 1 }
      rw [← hcurrent]
    have hindex : index? code m.bare.ip = some w := hw
    simp only [Option.isNone_some, Bool.false_eq_true, if_false, hindex, Option.bind_eq_bind,
      Option.bind_some]
    rw [hbare]
    cases Opcode.ofWord? w with
    | none => exact ⟨rfl, hm'.1⟩
    | some o =>
      have hsame := (execute_follows hcode o).same m.fetched hm'
      have hbounded := (execute_follows hcode o).bounded m.fetched hm'
      cases o with
      | halt => exact ⟨rfl, hm'.1⟩
      | _ => exact settled hsame hbounded

end Steps

/-! ### Reports -/

section Reports

variable {size : Nat} {p : Executable} {m : Machine}

/-- An address outside of the code has no instruction, so the text for it is made without looking
into the code. -/
theorem instructionAt_bare (hcode : p.code.size < limit) (addr : Word) :
    instructionAt p addr = some (p.instructionAt addr.toInt) := by
  have hsign : addr < 0 ↔ addr.toInt < 0 := Int64.lt_iff_toInt_lt
  rw [instructionAt, Executable.instructionAt]
  by_cases hneg : addr < 0
  · rw [if_pos (.inl hneg), if_pos (hsign.mp hneg)]
  rw [if_neg (mt hsign.mpr hneg)]
  rw [show addr.toInt.toNat = addr.toNatClampNeg from rfl]
  by_cases hlen : length p.code ≤ addr
  · rw [if_pos (.inr hlen), getElem?_eq_none hcode hlen]
  · obtain ⟨w, hindex, hget⟩ := exists_index? hneg hlen
    rw [if_neg (not_or.mpr ⟨hneg, hlen⟩), hindex, hget]
    simp only [Option.bind_eq_bind, Option.bind_some]
    obtain ⟨n, hn, rfl⟩ := exists_ofNat hneg
    rw [toNatClampNeg_ofNat hn] at hget ⊢
    have hlt := (Array.getElem?_eq_some_iff.mp hget).1
    have hsucc : n + 1 < limit := Nat.lt_of_le_of_lt hlt hcode
    rw [ofNat_succ]
    -- The cell behind the instruction is looked at only if it is an operand and there.
    by_cases hnext : Int64.ofNat (n + 1) < length p.code
    · obtain ⟨x, hindex', hget'⟩ :=
        exists_index? (ofNat_not_neg hsucc) (Int64.not_le.mpr hnext)
      rw [toNatClampNeg_ofNat hsucc] at hget'
      rw [hget', hindex', Instruction.text, decide_eq_true hnext, Bool.and_true]
      split <;> rfl
    · have hnone := getElem?_eq_none hcode (Int64.not_lt.mp hnext)
      rw [toNatClampNeg_ofNat hsucc] at hnone
      rw [hnone, Instruction.text, decide_eq_false hnext, Bool.and_false]
      rfl

theorem line_bare (hmap : p.sourceMap.size < limit) (addr : Word) :
    line p addr = some (p.line addr.toInt) := by
  have hsign : addr < 0 ↔ addr.toInt < 0 := Int64.lt_iff_toInt_lt
  rw [line, Executable.line]
  by_cases hneg : addr < 0
  · rw [if_pos (.inl hneg), if_pos (hsign.mp hneg)]
  rw [if_neg (mt hsign.mpr hneg)]
  show _ = some (p.sourceMap.getD addr.toNatClampNeg 0)
  rw [Array.getD_eq_getD_getElem?]
  by_cases hlen : length p.sourceMap ≤ addr
  · rw [if_pos (.inr hlen), getElem?_eq_none hmap hlen]
    rfl
  · obtain ⟨x, hindex, hget⟩ := exists_index? hneg hlen
    rw [if_neg (not_or.mpr ⟨hneg, hlen⟩), hindex, hget]
    rfl

theorem runtimeError_bare (hcode : p.code.size < limit) (hmap : p.sourceMap.size < limit)
    (hm : Bounded size m) (f : Fault) : runtimeError p m.bare f = some (p.runtimeError m f) := by
  have hcurrent : (Int64.ofNat m.current).toInt = m.current :=
    Int64.toInt_ofNat_of_lt hm.current_lt
  rw [runtimeError, line_bare hmap, instructionAt_bare hcode]
  show some (RuntimeError.mk (Int64.ofNat m.current).toNatClampNeg
    (p.line (Int64.ofNat m.current).toInt) (p.instructionAt (Int64.ofNat m.current).toInt) f) = _
  rw [hcurrent, toNatClampNeg_ofNat hm.current_lt]
  rfl

theorem shownTop_bare (hm : Bounded size m) :
    m.bare.shownTop = some (match m.top? with
      | some w => Text.ofWord w
      | none => "-") := by
  rw [shownTop, Machine.top?]
  cases htop : m.memory[m.sp]? with
  | none => rw [if_neg (Int64.not_lt.mpr ((length_le_sp hm).mpr htop))]
  | some w =>
    have hlt : m.bare.sp < length m.bare.memory :=
      Int64.not_le.mp fun h => by cases htop.symm.trans ((length_le_sp hm).mp h)
    have hindex : index? m.bare.memory m.bare.sp = some w := by
      show index? m.memory (Int64.ofNat m.sp) = some w
      rw [index?, if_neg (ofNat_not_neg hm.sp_lt), toNatClampNeg_ofNat hm.sp_lt, htop]
    rw [if_pos hlt, hindex]
    rfl

theorem ofWord_ofNat {n : Nat} (hn : n < limit) : Text.ofWord (Int64.ofNat n) = Text.ofNat n := by
  rw [Text.ofWord, Int64.toInt_ofNat_of_lt hn]
  rfl

theorem traceLine_bare (hcode : p.code.size < limit) (hm : Bounded size m) {w : Word}
    (hw : Machine.fetch? p.code m.ip = some w) : m.bare.traceLine p = some (m.traceLine p) := by
  rw [traceLine, shownTop_bare hm, instructionAt_bare hcode,
    show index? p.code m.bare.ip = some w from hw, Machine.traceLine, hw, ← ofWord_ofNat hm.sp_lt,
    ← ofWord_ofNat hm.hp_lt]
  rfl

/-- The trace grows as that of the machine does. -/
theorem traceStep_bare (hcode : p.code.size < limit) (hm : Bounded size m) (tracing : Bool)
    (trace : List Text) :
    m.bare.traceStep p tracing trace = some (if tracing then
        if (Machine.fetch? p.code m.ip).isSome then m.traceLine p :: trace else trace
      else trace) := by
  rw [traceStep, isOutside_bare hcode]
  cases tracing with
  | false => rfl
  | true =>
    cases hw : Machine.fetch? p.code m.ip with
    | none => rfl
    | some w =>
      rw [traceLine_bare hcode hm hw]
      rfl

end Reports

/-! ### Runs -/

section Runs

variable {size : Nat} {p : Executable} {m : Machine}

/-- A whole run, traced or not. -/
theorem steps_bare (hcode : p.code.size < limit) (hm : Bounded size m) (tracing : Bool)
    (n : Nat) (trace : List Text) :
    steps p tracing n trace m.bare = some
      ((if tracing then (p.traced n trace m).1 else trace), .ofMachine (m.run p.code n)) ∧
      Bounded size (m.run p.code n).machine := by
  induction n generalizing trace m with
  | zero => exact ⟨by cases tracing <;> rfl, hm⟩
  | succ n ih =>
    obtain ⟨hstep, hbounded⟩ := step_bare hcode hm
    rw [steps, Machine.run_succ, Executable.traced, traceStep_bare hcode hm, hstep]
    simp only [Option.bind_eq_bind, Option.bind_some]
    cases hm' : m.step p.code with
    | running m' =>
      rw [hm'] at hbounded
      obtain ⟨hrest, hbounded'⟩ := ih hbounded (if tracing then
        if (Machine.fetch? p.code m.ip).isSome then m.traceLine p :: trace else trace else trace)
      refine ⟨hrest.trans ?_, hbounded'⟩
      cases tracing <;> rfl
    | halted m' | failed f m' =>
      rw [hm'] at hbounded
      exact ⟨by cases tracing <;> rfl, hbounded⟩

/-- Both machines stop for the same reasons, and a fault is reported for the same address and
line. -/
theorem stop?_bare (hcode : p.code.size < limit) (hmap : p.sourceMap.size < limit)
    {o : Machine.Outcome} (ho : Bounded size o.machine) (trace : List Text) :
    stop? p trace (.ofMachine o) =
      some ((p.stop? o).map fun stop => Stop.mk trace stop.machine.bare stop.error) := by
  cases o with
  | running m => rfl
  | halted m => rfl
  | failed f m =>
    show (do
      let e ← runtimeError p m.bare f
      return some (Stop.mk trace m.bare (some e))) = _
    rw [runtimeError_bare (m := m) hcode hmap ho]
    rfl

theorem machine_bare (hm : Bounded size m) : m.bare.machine = m := by
  show { m with
    sp := (Int64.ofNat m.sp).toNatClampNeg
    hp := (Int64.ofNat m.hp).toNatClampNeg
    current := (Int64.ofNat m.current).toNatClampNeg } = m
  rw [toNatClampNeg_ofNat hm.sp_lt, toNatClampNeg_ofNat hm.hp_lt,
    toNatClampNeg_ofNat hm.current_lt]

/-- A run on the bare machine ends as the run of the program does, with the same messages. -/
theorem run_bare (hcode : p.code.size < limit) (hmap : p.sourceMap.size < limit)
    (hmemory : m.memory.size < limit) (hcurrent : m.current < limit) (tracing : Bool) (n : Nat) :
    ∃ trace, run p tracing n m.bare = some ((p.stop? (m.reset.run p.code n)).map fun stop =>
        Stop.mk trace stop.machine.bare stop.error) ∧
      p.run tracing n m = (p.stop? (m.reset.run p.code n)).map fun stop =>
        ⟨stop, p.runLog m.memory.size trace stop⟩ := by
  obtain ⟨hsteps, hbounded⟩ := steps_bare hcode (.reset hmemory hcurrent) tracing n []
  rw [Machine.bare_reset] at hsteps
  have hstop := stop?_bare hcode hmap hbounded
  refine ⟨(if tracing then (p.traced n [] m.reset).1 else []).reverse, ?_, ?_⟩
  · rw [run, hsteps]
    exact hstop _
  · rw [Executable.run]
    cases tracing with
    | false => rfl
    | true =>
      show (p.stop? (p.traced n [] m.reset).2).map _ = _
      rw [p.traced_outcome]
      rfl

end Runs

end Bare

/-! ### Halting -/

/-- Only the number of an instruction denotes it. -/
theorem Opcode.eq_code_of_ofWord? {w : Word} {o : Opcode} (h : ofWord? w = some o) :
    w = Int64.ofNat o.code := by
  rw [ofWord?] at h
  split at h
  · cases h
  · next hneg =>
    obtain ⟨n, hn, rfl⟩ := exists_ofNat hneg
    rw [toNatClampNeg_ofNat hn, Option.join_eq_some_iff, byCode, List.getElem?_toArray,
      List.getElem?_map, Option.map_eq_some_iff] at h
    obtain ⟨k, hk, hfind⟩ := h
    obtain rfl : n = k := by
      obtain ⟨hlt, hget⟩ := List.getElem?_eq_some_iff.mp hk
      rw [← hget, List.getElem_range]
    have hcode := List.find?_some hfind
    rw [beq_iff_eq] at hcode
    rw [hcode]

namespace Machine

variable {code : Array Word} {m m' : Machine} {n : Nat}

/-- What a step can be: there is no instruction, the cell is none, it is a halt, or it is an
instruction that is executed. -/
theorem step_cases (code : Array Word) (m : Machine) :
    (fetch? code m.ip = none ∧ step code m = .failed .invalidJump m) ∨
    (∃ w, fetch? code m.ip = some w ∧ Opcode.ofWord? w = none ∧
      step code m = .failed .invalidOpcode m.fetched) ∨
    (fetch? code m.ip = some (Int64.ofNat Opcode.halt.code) ∧ step code m = .halted m.fetched) ∨
    ∃ o, o ≠ .halt ∧ fetch? code m.ip = some (Int64.ofNat o.code) ∧
      step code m = settle (execute code o m.fetched) := by
  cases hw : fetch? code m.ip with
  | none => exact .inl ⟨rfl, by rw [step, hw]⟩
  | some w =>
    cases ho : Opcode.ofWord? w with
    | none =>
      refine .inr (.inl ⟨w, rfl, ho, ?_⟩)
      rw [step, hw]
      simp only [ho]
      rfl
    | some o =>
      obtain rfl := Opcode.eq_code_of_ofWord? ho
      by_cases hhalt : o = .halt
      · subst hhalt
        exact .inr (.inr (.inl ⟨rfl, step_eq_halted hw⟩))
      · exact .inr (.inr (.inr ⟨o, hhalt, rfl, step_eq_settle hw hhalt⟩))

/-- A step that halts executes a halt. -/
theorem code_of_step_halted (h : step code m = .halted m') :
    code[m'.current]? = some (Int64.ofNat Opcode.halt.code) := by
  rcases step_cases code m with ⟨-, hstep⟩ | ⟨w, -, -, hstep⟩ | ⟨hw, hstep⟩ | ⟨o, -, -, hstep⟩ <;>
    rw [hstep] at h
  · cases h
  · cases h
  · cases h
    exact (fetch?_eq_some_iff.mp hw).2
  · cases hr : execute code o m.fetched with
    | ok x m₁ | error f m₁ => rw [hr] at h; cases h

/-- A run that halts ends with a step that halts. -/
theorem code_of_run_halted (h : run code n m = .halted m') :
    code[m'.current]? = some (Int64.ofNat Opcode.halt.code) := by
  induction n generalizing m with
  | zero => cases h
  | succ n ih =>
    rw [run_succ] at h
    cases hstep : step code m with
    | running m₁ =>
      rw [hstep] at h
      exact ih h
    | halted m₁ =>
      rw [hstep] at h
      exact code_of_step_halted (hstep.trans h)
    | failed f m₁ =>
      rw [hstep] at h
      cases h

end Machine

/-- **Any code is safe to run.**  Whatever words the code consists of, with any source map, on any
machine, traced or not, after any number of steps:

* the bare machine has not crashed, so no index was outside of its array;
* its heap pointer is not negative and at most its stack pointer, which is at most the length of the
  memory, and there is a top of the stack unless that is empty;
* what the run gives is what the bare machine gives, and if that is an end, it is a halt or one of
  seven faults.

Lengths are those that a register can hold. -/
theorem Executable.run_inRange (p : Executable) (m : Machine) (tracing : Bool) (n : Nat)
    (hcode : p.code.size < Word.limit) (hmap : p.sourceMap.size < Word.limit)
    (hmemory : m.memory.size < Word.limit) (hcurrent : m.current < Word.limit) :
    (∃ trace outcome, Bare.steps p tracing n [] m.bare.reset = some (trace, outcome) ∧
      outcome = .ofMachine (m.reset.run p.code n) ∧
      0 ≤ outcome.machine.hp ∧ outcome.machine.hp ≤ outcome.machine.sp ∧
      outcome.machine.sp ≤ Bare.length outcome.machine.memory ∧
      outcome.machine.memory.size = m.memory.size ∧
      (outcome.machine.sp ≠ Bare.length outcome.machine.memory →
        ∃ w, Bare.index? outcome.machine.memory outcome.machine.sp = some w)) ∧
    ∃ result, Bare.run p tracing n m.bare = some result ∧
      p.run tracing n m = result.map (Bare.Stop.told p m.memory.size) ∧
      ∀ stop, result = some stop →
        (stop.error = none ∧
          Bare.index? p.code stop.machine.current = some (Int64.ofNat Opcode.halt.code)) ∨
        ∃ f ∈ [Fault.stackOverflow, .stackUnderflow, .heapExhausted, .invalidOpcode,
            .invalidAddress, .invalidJump, .divisionByZero],
          stop.error = some (p.runtimeError stop.machine.machine f) := by
  obtain ⟨hsteps, hbounded⟩ :=
    Bare.steps_bare hcode (.reset hmemory hcurrent) tracing n []
  obtain ⟨trace, hrun, hlogged⟩ := Bare.run_bare hcode hmap hmemory hcurrent tracing n
  rw [Machine.bare_reset] at hsteps
  -- The machine in which the run is or ends stands between the two.
  generalize hend : m.reset.run p.code n = ended at *
  have hmachine : (Bare.Outcome.ofMachine ended).machine = ended.machine.bare := by
    cases ended <;> rfl
  refine ⟨⟨_, _, hsteps, rfl, ?_⟩, _, hrun, ?_, ?_⟩
  · rw [hmachine]
    obtain ⟨hhp, hsp, hlen, htop⟩ := Bare.ordered hbounded
    exact ⟨hhp, hsp, hlen, hbounded.size_eq, htop⟩
  · rw [hlogged]
    cases ended with
    | running m' => rfl
    | halted m' | failed f m' =>
      simp only [stop?, Option.map_some, Bare.Stop.told]
      rw [Bare.machine_bare (m := m') hbounded]
  · intro stop hstop
    cases ended with
    | running m' => cases hstop
    | halted m' =>
      cases hstop
      have hlt : m'.current < Word.limit := hbounded.current_lt
      left
      refine ⟨rfl, ?_⟩
      show Bare.index? p.code (Int64.ofNat m'.current) = _
      rw [Bare.index?, if_neg (Word.ofNat_not_neg hlt), Word.toNatClampNeg_ofNat hlt]
      exact Machine.code_of_run_halted hend
    | failed f m' =>
      cases hstop
      right
      refine ⟨f, by cases f <;> decide, ?_⟩
      rw [Bare.machine_bare (m := m') hbounded]

/-- Code without source map that moves the heap up to the end of the memory and then pushes an
operand that is not there. -/
def collidingCode : Executable := { code := #[0x01, 1, 0x38, 0x01] }

/-- In a memory of one cell the heap meets the empty stack at the end of the memory.  The push of
the missing operand then collides with the heap instead of writing outside of the memory. -/
theorem Executable.run_inRange_colliding :
    ∃ stop, Bare.run collidingCode true 3 (Machine.new 1).bare = some (some stop) ∧
      stop.trace.length = 3 ∧ stop.machine.hp = 1 ∧ stop.machine.sp = 1 ∧
      stop.machine.ip = 4 ∧ Bare.length stop.machine.memory = 1 ∧
      stop.error = some (collidingCode.runtimeError stop.machine.machine .stackOverflow) ∧
      collidingCode.run true 3 (Machine.new 1) = some (stop.told collidingCode 1) := by
  have hseen : (Bare.run collidingCode true 3 (Machine.new 1).bare).any (fun result =>
      result.any fun stop => stop.trace.length = 3 && stop.machine.hp = 1 && stop.machine.sp = 1 &&
        stop.machine.ip = 4 && Bare.length stop.machine.memory = 1 &&
        stop.error.map (fun e => e.fault) = some .stackOverflow) = true := by
    decide +kernel
  obtain ⟨-, result, hrun, htold, hends⟩ := run_inRange collidingCode (Machine.new 1) true 3
    (by decide) (by decide) (by decide) (by decide)
  rw [hrun] at hseen
  cases result with
  | none => cases hseen
  | some stop =>
    simp only [Option.any_some, Bool.and_eq_true, decide_eq_true_eq] at hseen
    obtain ⟨⟨⟨⟨⟨htrace, hhp⟩, hsp⟩, hip⟩, hlength⟩, hfault⟩ := hseen
    refine ⟨stop, hrun, htrace, hhp, hsp, hip, hlength, ?_, htold⟩
    obtain ⟨hnone, -⟩ | ⟨f, -, herror⟩ := hends stop rfl
    · rw [hnone] at hfault
      cases hfault
    · rw [herror] at hfault ⊢
      obtain rfl := Option.some.inj hfault
      rfl

end Foolscap
