import Foolscap.Proofs.Assembly.Format
import Foolscap.Proofs.Machine.InRange

/-!
# Reports of faults

A machine that has run before is reset, but it remembers the address of the last instruction of the
earlier run.  Here it is shown that this never shows: a run on such a machine is the run on a new
one, and a fault is reported at the instruction that raised it or that led out of the code.
-/

namespace Foolscap

open List

namespace Machine

/-! ### What all effects have in common -/

/-- A machine is as before in what instructions do not touch: the address of the last instruction
begun and the size of the memory. -/
structure Alike (m m' : Machine) : Prop where
  current : m'.current = m.current
  size : m'.memory.size = m.memory.size

/-- What an effect can come to.  Effects do not find out whether a jump leads out of the code. -/
inductive Comes {α : Type} (m : Machine) : EStateM.Result Fault Machine α → Prop where
  | ok {x : α} {m' : Machine} (h : Alike m m') : Comes m (.ok x m')
  | error {f : Fault} {m' : Machine} (h : Alike m m') (hf : f ≠ .invalidJump) :
      Comes m (.error f m')

/-- An effect comes to machines that are as before in what instructions do not touch. -/
def Steady {α : Type} (e : Effect α) : Prop := ∀ m, Comes m (e m)

theorem Alike.refl (m : Machine) : Alike m m := ⟨rfl, rfl⟩

theorem Alike.trans {m m₁ m₂ : Machine} (h : Alike m m₁) (h' : Alike m₁ m₂) : Alike m m₂ :=
  ⟨h'.current.trans h.current, h'.size.trans h.size⟩

/-- Effects in sequence: what each of them keeps both keep, and neither fails for want of an
instruction. -/
theorem Steady.bind {α β : Type} {e : Effect α} {g : α → Effect β} (h : Steady e)
    (hg : ∀ x, Steady (g x)) : Steady (e >>= g) := by
  intro m
  show Comes m (EStateM.bind e g m)
  rw [EStateM.bind]
  cases hm : e m with
  | ok x m₁ =>
    have hfirst := h m
    rw [hm] at hfirst
    cases hfirst with
    | ok hfirst =>
      have hsecond := hg x m₁
      show Comes m (g x m₁)
      cases hm₂ : g x m₁ with
      | ok y m₂ =>
        rw [hm₂] at hsecond
        cases hsecond with
        | ok hsecond => exact .ok (hfirst.trans hsecond)
      | error f m₂ =>
        rw [hm₂] at hsecond
        cases hsecond with
        | error hsecond hf => exact .error (hfirst.trans hsecond) hf
  | error f m₁ =>
    have hfirst := h m
    rw [hm] at hfirst
    cases hfirst with
    | error hfirst hf => exact .error hfirst hf

theorem steady_push (w : Word) : Steady (push w) := by
  intro m
  rw [push]
  split
  · exact .error (.refl m) (by decide)
  · exact .ok ⟨rfl, Array.size_setIfInBounds⟩

theorem steady_pop : Steady pop := by
  intro m
  rw [pop]
  split
  · exact .ok ⟨rfl, rfl⟩
  · exact .error (.refl m) (by decide)

/-- An instruction that pops into a register, whichever it is. -/
theorem steady_popTo {set : Machine → Word → Machine} (hset : ∀ m w, Alike m (set m w)) :
    Steady (popTo set) := by
  intro m
  rw [popTo, pop]
  split
  · next w m₁ hpop =>
    split at hpop
    · cases hpop
      exact .ok ⟨(hset _ w).current, (hset _ w).size⟩
    · cases hpop
  · next f m₁ hpop =>
    split at hpop
    · cases hpop
    · cases hpop
      exact .error (hset m 0) (by decide)

theorem steady_load (addr : Word) : Steady (load addr) := by
  intro m
  rw [load]
  split
  · exact .ok (.refl m)
  · exact .error (.refl m) (by decide)

theorem steady_store (addr w : Word) : Steady (store addr w) := by
  intro m
  rw [store]
  split
  · exact .ok ⟨rfl, Array.size_setIfInBounds⟩
  · exact .error (.refl m) (by decide)

theorem steady_setHeap (addr : Word) : Steady (setHeap addr) := by
  intro m
  rw [setHeap]
  split
  · exact .error (.refl m) (by decide)
  split
  · exact .error (.refl m) (by decide)
  · exact .ok ⟨rfl, rfl⟩

theorem steady_print : Steady print := by
  intro m
  rw [print]
  split
  · exact .ok ⟨rfl, rfl⟩
  · exact .error (.refl m) (by decide)

theorem steady_operand (code : Array Word) : Steady (operand code) := by
  intro m
  rw [operand]
  split
  · exact .ok ⟨rfl, rfl⟩
  · exact .ok (.refl m)

theorem steady_jump (addr : Word) : Steady (jump addr) := fun _ => .ok ⟨rfl, rfl⟩

theorem steady_arithmetic (f : Word → Word → Word) : Steady (arithmetic f) :=
  steady_pop.bind fun v => steady_pop.bind fun u => steady_push (f u v)

theorem steady_divide : Steady divide := by
  refine steady_pop.bind fun v => steady_pop.bind fun u => ?_
  split
  · exact fun m => .error (.refl m) (by decide)
  · exact steady_push (u / v)

theorem steady_branchIf (code : Array Word) (test : Word → Word → Bool) :
    Steady (branchIf code test) := by
  refine (steady_operand code).bind fun target => ?_
  refine steady_pop.bind fun v => steady_pop.bind fun u => ?_
  split
  · exact steady_jump target
  · exact fun m => .ok (.refl m)

theorem steady_pushRegister (f : Machine → Word) : Steady (do push (f (← get))) :=
  fun m => steady_push (f m) m

/-- Every instruction. -/
theorem steady_execute (code : Array Word) (o : Opcode) : Steady (execute code o) := by
  cases o with
  | push => exact (steady_operand code).bind steady_push
  | pop => exact steady_pop.bind fun _ m => .ok (.refl m)
  | add | sub | mult => exact steady_arithmetic _
  | div => exact steady_divide
  | sw => exact steady_pop.bind fun addr => steady_pop.bind fun w => steady_store addr w
  | lw => exact steady_pop.bind fun addr => (steady_load addr).bind steady_push
  | b => exact (steady_operand code).bind steady_jump
  | beq | bleq => exact steady_branchIf code _
  | js => exact steady_pop.bind fun _ _ => .ok ⟨rfl, rfl⟩
  | lra | ltm | lfp | lhp => exact steady_pushRegister _
  | sra | stm | sfp => exact steady_popTo fun _ _ => ⟨rfl, rfl⟩
  | cfp => exact fun _ => .ok ⟨rfl, rfl⟩
  | shp => exact steady_pop.bind steady_setHeap
  | print => exact steady_print
  | halt => exact fun m => .ok (.refl m)

/-! ### Steps and runs -/

section Runs

variable {code : Array Word} {m m' : Machine} {f : Fault} {limit : Nat}

/-- A step that fetches an instruction takes down its address and keeps the size of the memory, and
does not fail for want of an instruction. -/
theorem step_steady (h : (fetch? code m.ip).isSome) :
    Alike m.fetched (step code m).machine ∧ ∀ m', step code m ≠ .failed .invalidJump m' := by
  rcases step_cases code m with ⟨hnone, -⟩ | ⟨w, -, -, hstep⟩ | ⟨-, hstep⟩ | ⟨o, -, -, hstep⟩
  · rw [hnone] at h
    cases h
  · rw [hstep]
    exact ⟨.refl _, nofun⟩
  · rw [hstep]
    exact ⟨.refl _, nofun⟩
  · rw [hstep]
    have hcomes := steady_execute code o m.fetched
    cases hr : execute code o m.fetched with
    | ok x m₁ =>
      rw [hr] at hcomes
      cases hcomes with
      | ok hlike => exact ⟨hlike, nofun⟩
    | error f m₁ =>
      rw [hr] at hcomes
      cases hcomes with
      | error hlike hf =>
        refine ⟨hlike, fun m' hm' => ?_⟩
        cases hm'
        exact hf rfl

/-- A step keeps the size of the memory. -/
theorem size_step (code : Array Word) (m : Machine) :
    (step code m).machine.memory.size = m.memory.size := by
  cases h : fetch? code m.ip with
  | none =>
    rw [step, h]
    rfl
  | some w => exact (step_steady (by rw [h]; rfl)).1.size

/-- So does a run. -/
theorem size_run (code : Array Word) (limit : Nat) (m : Machine) :
    (run code limit m).machine.memory.size = m.memory.size := by
  induction limit generalizing m with
  | zero => rfl
  | succ limit ih =>
    have hsize := size_step code m
    rw [run_succ]
    cases hstep : step code m with
    | running m₁ =>
      rw [hstep] at hsize
      exact (ih m₁).trans hsize
    | halted m₁ | failed f m₁ => rwa [hstep] at hsize

/-- The instruction that a run failed at: the run comes to it, and either it fails, or it goes to
where there is no instruction, which is the fault then.  Nothing is fetched after it. -/
def Culprit (code : Array Word) (m m' : Machine) (f : Fault) (addr : Nat) : Prop :=
  ∃ n m₁, run code n m = .running m₁ ∧ m₁.ip.toInt = addr ∧ (fetch? code m₁.ip).isSome ∧
    if f = .invalidJump then step code m₁ = .running m' ∧ fetch? code m'.ip = none
    else step code m₁ = .failed f m'

/-- Every run that fails has a culprit, whose address is the last one that was taken down. -/
theorem culprit_of_run (hfetch : (fetch? code m.ip).isSome) (h : run code limit m = .failed f m') :
    Culprit code m m' f m'.current := by
  have hip : ∀ {m₁ : Machine}, (fetch? code m₁.ip).isSome →
      m₁.ip.toInt = (m₁.ip.toNatClampNeg : Int) := by
    intro m₁ hsome
    obtain ⟨w, hw⟩ := Option.isSome_iff_exists.mp hsome
    obtain ⟨n, hn, hword⟩ := Word.exists_ofNat (fetch?_eq_some_iff.mp hw).1
    rw [hword, Word.toNatClampNeg_ofNat hn, Int64.toInt_ofNat_of_lt hn]
  induction limit generalizing m with
  | zero => cases h
  | succ limit ih =>
    obtain ⟨hlike, hjump⟩ := step_steady hfetch
    rw [run_succ] at h
    cases hstep : step code m with
    | halted m₁ =>
      rw [hstep] at h
      cases h
    | failed t m₁ =>
      rw [hstep] at h hlike
      cases h
      have hcurrent : m'.current = m.ip.toNatClampNeg := hlike.current
      have hf : f ≠ .invalidJump := fun hf => hjump m' (hf ▸ hstep)
      refine ⟨0, m, rfl, by rw [hcurrent, hip hfetch], hfetch, ?_⟩
      rwa [if_neg hf]
    | running m₁ =>
      rw [hstep] at h hlike
      cases hnext : fetch? code m₁.ip with
      | some w =>
        obtain ⟨n, m₂, hrun, hrest⟩ := ih (by rw [hnext]; rfl) h
        refine ⟨n + 1, m₂, ?_, hrest⟩
        rw [run_succ, hstep]
        exact hrun
      | none =>
        -- The run has left the code, so the next step is its last one.
        obtain ⟨rfl, rfl⟩ : m' = m₁ ∧ f = .invalidJump := by
          cases limit with
          | zero => cases h
          | succ limit =>
            change run code (limit + 1) m₁ = _ at h
            rw [run_succ, step, hnext] at h
            cases h
            exact ⟨rfl, rfl⟩
        have hcurrent : m'.current = m.ip.toNatClampNeg := hlike.current
        refine ⟨0, m, rfl, by rw [hcurrent, hip hfetch], hfetch, ?_⟩
        rw [if_pos rfl]
        exact ⟨hstep, hnext⟩

end Runs

/-! ### Machines that have run before -/

/-- The machines of a size that have run any programs, whatever came of that. -/
inductive Used (size : Int) : Machine → Prop where
  | new : Used size (new size)
  | run {m : Machine} {p : Executable} {trace : Bool} {limit : Nat} {stop : Stop}
      {log : List LogLine} (h : Used size m) (hrun : p.run trace limit m = some ⟨stop, log⟩) :
      Used size stop.machine

end Machine

namespace Executable

open Machine

variable {p : Executable} {m m' : Machine} {trace : Bool} {limit : Nat} {log : List LogLine}

/-- The machine that a run of a program stops with is that of so many steps. -/
theorem outcome_of_run {stop : Stop} (h : p.run trace limit m = some ⟨stop, log⟩) :
    p.stop? (m.reset.run p.code limit) = some stop := by
  have houtcome : ∀ lines : List Text, (p.stop? (m.reset.run p.code limit)).map (fun stop =>
      (⟨stop, p.runLog m.memory.size lines.reverse stop⟩ : Logged Stop)) = some ⟨stop, log⟩ →
      p.stop? (m.reset.run p.code limit) = some stop := by
    intro lines hlines
    obtain ⟨stop', hstop, heq⟩ := Option.map_eq_some_iff.mp hlines
    cases heq
    exact hstop
  rw [run] at h
  cases trace with
  | false => exact houtcome [] h
  | true =>
    rw [← p.traced_outcome limit [] m.reset]
    rw [← p.traced_outcome limit [] m.reset] at houtcome
    exact houtcome _ h

theorem machine_of_stop? {outcome : Outcome} {stop : Stop} (h : p.stop? outcome = some stop) :
    stop.machine = outcome.machine := by
  cases outcome with
  | running m₁ => cases h
  | halted m₁ | failed f m₁ => cases h; rfl

/-- Tracing starts alike, whatever instruction the machine began last, if there is one now. -/
theorem traced_of_fetch? (h : (fetch? p.code m.ip).isSome) (current : Nat) (trace : List Text) :
    p.traced (limit + 1) trace { m with current := current } = p.traced (limit + 1) trace m := by
  have hstep : step p.code { m with current := current } = step p.code m := by
    obtain ⟨w, hw⟩ := Option.isSome_iff_exists.mp h
    unfold step
    simp only [hw]
  rw [traced, traced, hstep]
  rfl

theorem isSome_fetch?_reset (hp : 0 < p.code.size) : (fetch? p.code m.reset.ip).isSome := by
  show (p.code[0]?).isSome
  rw [Array.getElem?_eq_getElem hp]
  rfl

/-- A run does not depend on what the machine did before. -/
theorem run_eq_of_size (hp : 0 < p.code.size) (hsize : m.memory.size = m'.memory.size) :
    p.run trace limit m = p.run trace limit m' := by
  have hreset : m.reset = { m'.reset with current := m.current } := by
    rw [reset, reset, hsize]
  cases limit with
  | zero => cases trace <;> rfl
  | succ limit =>
    have htraced := @traced_of_fetch? p m'.reset limit (isSome_fetch?_reset hp) m.current []
    have hrun : m.reset.run p.code (limit + 1) = m'.reset.run p.code (limit + 1) := by
      rw [← p.traced_outcome _ [], ← p.traced_outcome _ [], hreset, htraced]
    rw [run, run, hrun, hreset, htraced, hsize]

end Executable

/-- A machine keeps the size of its memory. -/
theorem Machine.Used.size_eq {size : Int} {m : Machine} (h : Used size m) :
    m.memory.size = (Machine.new size).memory.size := by
  induction h with
  | new => rfl
  | @run m p trace limit stop log _ hrun ih =>
    rw [Executable.machine_of_stop? (Executable.outcome_of_run hrun), size_run, ← ih]
    exact Array.size_replicate

/-! ### Lines of assembly -/

namespace Assembler

/-- The cell of a concatenation is one of a part, and so is what is told of the parts. -/
theorem exists_block {blocks : List (List Word)} {a : Nat} (h : a < blocks.flatten.length)
    (k : Nat) :
    ∃ i block, blocks[i]? = some block ∧ (blocks.take i).flatten.length ≤ a ∧
      a < (blocks.take i).flatten.length + block.length ∧
      ((blocks.zipIdx k).flatMap fun b => List.replicate b.1.length (b.2 : Int))[a]? =
        some ((k + i : Nat) : Int) := by
  induction blocks generalizing a k with
  | nil => exact absurd h (Nat.not_lt_zero a)
  | cons block blocks ih =>
    rw [zipIdx_cons, flatMap_cons]
    by_cases hfirst : a < block.length
    · refine ⟨0, block, rfl, Nat.zero_le _, by simpa using hfirst, ?_⟩
      rw [List.getElem?_append_left (by simpa using hfirst), List.getElem?_replicate_of_lt hfirst]
      rfl
    · rw [flatten_cons, length_append] at h
      obtain ⟨i, block', hblock, hle, hlt, hline⟩ := ih (a := a - block.length) (by omega) (k + 1)
      refine ⟨i + 1, block', hblock, ?_, ?_, ?_⟩
      · rw [take_succ_cons, flatten_cons, length_append]
        omega
      · rw [take_succ_cons, flatten_cons, length_append]
        omega
      · rw [List.getElem?_append_right (by simpa using hfirst), length_replicate, hline]
        congr 2
        omega

/-- The instruction on a line, counted from 0, fills a cell of the code: that is not one of the
cells of the lines before it, but one of those of the lines up to it. -/
def Occupies (ls : List Text) (p : Executable) (i a : Nat) : Prop :=
  ∃ blocks raw o args, CodeOf ls blocks p ∧ ls[i]? = some raw ∧ Instructs raw o args ∧
    (blocks.take i).flatten.length ≤ a ∧ a < (blocks.take (i + 1)).flatten.length

/-- Lines that fill cells are instructions. -/
theorem Emits.instructs {addressOf : Text → Nat → Prop} {raw : Text} {ws : List Word}
    (h : Emits addressOf raw ws) (hne : ws ≠ []) : ∃ o args, Instructs raw o args := by
  cases h with
  | blank _ | label _ => exact absurd rfl hne
  | bare h _ | number h _ | target h _ _ _ => exact ⟨_, _, h⟩

/-- Every cell is filled by the instruction on the line that the source map has for it. -/
theorem CodeOf.occupies {ls : List Text} {blocks : List (List Word)} {p : Executable}
    (h : CodeOf ls blocks p) {a : Nat} (ha : a < p.code.size) :
    ∃ i : Nat, p.line a = (i + 1 : Nat) ∧ Occupies ls p i a := by
  rw [← Array.length_toList, h.code] at ha
  obtain ⟨i, block, hblock, hle, hlt, hline⟩ := exists_block ha 1
  rw [← h.sourceMap, Array.getElem?_toList] at hline
  refine ⟨i, ?_, ?_⟩
  · rw [Executable.line, if_neg (by omega), Int.toNat_natCast, Array.getD_eq_getD_getElem?, hline,
      Nat.add_comm]
    rfl
  · obtain ⟨hi, rfl⟩ := List.getElem?_eq_some_iff.mp hblock
    have hi' : i < ls.length := h.emits.length_eq ▸ hi
    have hemits : Emits (AddressOf ls blocks) ls[i] blocks[i] := h.emits.get hi' hi
    obtain ⟨o, args, hinstructs⟩ := hemits.instructs (length_pos_iff.mp (by omega))
    refine ⟨blocks, ls[i], o, args, h, List.getElem?_eq_getElem hi', hinstructs, hle, ?_⟩
    rw [take_add_one, hblock, flatten_append, length_append]
    simpa using hlt

end Assembler

/-! ### Reports -/

/-- **Reports of faults point at the culprit, whatever ran before.**  On a machine that has run any
programs, a program that has any code runs as it does on a new machine of the same size, with or
without a trace, for any number of steps.  If it fails, the address that is reported is one in the
code, and that of the last instruction that was fetched; if the run left the code, that is the
instruction that led out of it.  If the program is that of an assembly text, the line that is
reported is the one, counted from 1, whose instruction is at that address. -/
theorem Executable.run_blames_culprit {size : Int} {m : Machine} (hm : m.Used size)
    {p : Executable} (hp : 0 < p.code.size) (trace : Bool) (limit : Nat) :
    p.run trace limit m = p.run trace limit (.new size) ∧
      ∀ m' e log, p.run trace limit m = some ⟨⟨m', some e⟩, log⟩ →
        e.addr < p.code.size ∧ Machine.Culprit p.code m.reset m' e.fault e.addr ∧
        ∀ t, assemble t = .ok p →
          ∃ i : Nat, e.line = (i + 1 : Nat) ∧
            Assembler.Occupies (Assembler.split t) p i e.addr := by
  refine ⟨run_eq_of_size hp hm.size_eq, fun m' e log hrun => ?_⟩
  obtain ⟨f, hfailed, rfl⟩ : ∃ f, m.reset.run p.code limit = .failed f m' ∧
      e = p.runtimeError m' f := by
    have hstop := outcome_of_run hrun
    cases houtcome : m.reset.run p.code limit with
    | running m₁ => rw [houtcome] at hstop; cases hstop
    | halted m₁ => rw [houtcome] at hstop; cases hstop
    | failed f m₁ =>
      rw [houtcome] at hstop
      cases hstop
      exact ⟨f, rfl, rfl⟩
  have hculprit := Machine.culprit_of_run (isSome_fetch?_reset hp) hfailed
  have haddr : m'.current < p.code.size := by
    obtain ⟨n, m₁, -, hip, hsome, -⟩ := hculprit
    obtain ⟨w, hw⟩ := Option.isSome_iff_exists.mp hsome
    have hcell := (Machine.fetch?_eq_some_iff.mp hw).2
    have hcurrent : m₁.ip.toNatClampNeg = m'.current := by
      rw [Int64.toNatClampNeg, hip, Int.toNat_natCast]
    rw [← hcurrent]
    exact (Array.getElem?_eq_some_iff.mp hcell).1
  refine ⟨haddr, hculprit, fun t ht => ?_⟩
  rcases ofLines_cases (Assembler.split t) with ⟨p', blocks, hp', -, hcode⟩ | ⟨err, i, herr, -⟩
  · obtain rfl := Except.ok.inj (hp'.symm.trans ht)
    exact hcode.occupies haddr
  · cases herr.symm.trans ht

/-- The assembly of a program that jumps behind its end. -/
def leavingText : Text := "push 1\nb end\nend:\n"

/-- The program of that assembly. -/
def leavingCode : Executable :=
  ⟨#[1, 1, 32, 4], #[1, 1, 2, 2], ["push 1", "b end", "end:"], [("end", 4)]⟩

/-- After a run that failed at address 3, the program that jumps behind its end does so from
address 2, where the second line of its assembly is. -/
theorem Executable.run_blames_culprit_leaving :
    assemble leavingText = .ok leavingCode ∧
    ∃ m m' log, m.Used 4 ∧ m.current = 3 ∧
      leavingCode.run false 3 m = some ⟨⟨m', some ⟨2, 2, "b 4", .invalidJump⟩⟩, log⟩ ∧
      leavingCode.run false 3 m = leavingCode.run false 3 (.new 4) ∧
      Machine.Culprit leavingCode.code m.reset m' .invalidJump 2 ∧
      ∃ i : Nat, (2 : Int) = (i + 1 : Nat) ∧
        Assembler.Occupies (Assembler.split leavingText) leavingCode i 2 := by
  have hassemble : assemble leavingText = .ok leavingCode := @ofLines_of_ok
    (Assembler.split leavingText) ⟨#[(1, .number 1), (1, .number 1), (2, .number 32),
      (2, .label "end")], [("end", 4)]⟩ rfl
  let failing : Executable := { code := #[1, 7, 2, 2] }
  let m : Machine := { memory := #[0, 0, 0, 7], ip := 4, sp := 4, fp := 4, current := 3 }
  let m' : Machine := { memory := #[0, 0, 0, 1], ip := 4, sp := 3, fp := 4, current := 2 }
  have hfailing : failing.run false 3 (.new 4) =
      some ⟨⟨m, some (failing.runtimeError m .stackUnderflow)⟩, _⟩ := rfl
  have hused : m.Used 4 := .run .new hfailing
  have hrun : leavingCode.run false 3 m = some ⟨⟨m', some ⟨2, 2, "b 4", .invalidJump⟩⟩, _⟩ := rfl
  obtain ⟨hsame, hblame⟩ := run_blames_culprit hused (p := leavingCode) (by decide) false 3
  obtain ⟨-, hculprit, hline⟩ := hblame _ _ _ hrun
  exact ⟨hassemble, m, m', _, hused, rfl, hrun, hsame, hculprit, hline _ hassemble⟩

end Foolscap
