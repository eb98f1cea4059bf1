import Foolscap.Proofs.Machine.Runs

/-!
# Lines of assembly in runs

What every line of assembly does to a configuration.  Each lemma takes a run from the configuration
after the line to one from the configuration before it, so that the lemmas of a block of code are
applied in the order of its lines.
-/

namespace Foolscap

open List Line

open Machine (settle)

variable {P : Setup} {d : Nat} {Q : Config → Prop} {k k' : List Line} {S H : List Word}
  {fp : Nat} {ra tm u v w : Word} {o : List Word}

/-! ### Lines that push -/

/-- A line goes on to the next one and pushes a word. -/
def Pushing (P : Setup) (x : Line) (c : Config) (w : Word) : Prop :=
  ∀ m, Holds P m { c with code := x :: c.code } → ∃ m₁, Holds P m₁ c ∧ m₁.sp = m.sp ∧ m₁.hp = m.hp ∧
    Machine.step P.code m = settle (Machine.push w m₁)

variable {m : Machine} {x : Line} {l : Label} {i : Opcode} {b : Branch} {body : List Line}

/-- How a line that pushes a number is begun. -/
theorem Holds.step_push {n : Int} (hm : Holds P m ⟨.push n :: k, S, H, fp, ra, tm, o⟩) :
    ∃ m₁, Holds P m₁ ⟨k, S, H, fp, ra, tm, o⟩ ∧ m₁.sp = m.sp ∧ m₁.hp = m.hp ∧
      m₁.memory = m.memory ∧ Machine.step P.code m = settle (Machine.push (Int64.ofInt n) m₁) := by
  obtain ⟨hstep, hop, hm₁⟩ := hm.step_operand (o := .push) rfl rfl rfl (by decide)
  refine ⟨_, hm₁, rfl, rfl, rfl, ?_⟩
  rw [hstep]
  simp only [Machine.execute, bind, EStateM.bind, hop]

/-- How a line that pushes the heap pointer is begun. -/
theorem Holds.step_lhp (hm : Holds P m ⟨.op .lhp :: k, S, H, fp, ra, tm, o⟩) :
    Holds P m.fetched ⟨k, S, H, fp, ra, tm, o⟩ ∧
      Machine.step P.code m = settle (Machine.push (Int64.ofNat H.length) m.fetched) := by
  obtain ⟨hstep, hm₁⟩ := hm.step_op rfl (by decide)
  refine ⟨hm₁, ?_⟩
  rw [hstep]
  show settle (Machine.push (Int64.ofNat m.fetched.hp) m.fetched) = _
  rw [hm₁.hp_eq]

namespace Pushing

theorem push {n : Int} : Pushing P (.push n) ⟨k, S, H, fp, ra, tm, o⟩ (Int64.ofInt n) := by
  intro m hm
  obtain ⟨m₁, hm₁, hsp, hhp, -, hstep⟩ := hm.step_push
  exact ⟨m₁, hm₁, hsp, hhp, hstep⟩

theorem pushLabel {l : Label} : Pushing P (.pushLabel (some l)) ⟨k, S, H, fp, ra, tm, o⟩
    (Int64.ofNat (address l P.lines)) := by
  intro m hm
  obtain ⟨hstep, hop, hm₁⟩ := hm.step_operand (o := .push) rfl rfl rfl (by decide)
  refine ⟨_, hm₁, rfl, rfl, ?_⟩
  rw [hstep]
  simp only [Machine.execute, bind, EStateM.bind, hop]

theorem lra : Pushing P (.op .lra) ⟨k, S, H, fp, ra, tm, o⟩ ra := by
  intro m hm
  obtain ⟨hstep, hm₁⟩ := hm.step_op rfl (by decide)
  refine ⟨_, hm₁, rfl, rfl, ?_⟩
  rw [hstep]
  show settle (Machine.push m.fetched.ra m.fetched) = _
  rw [hm₁.ra_eq]

theorem ltm : Pushing P (.op .ltm) ⟨k, S, H, fp, ra, tm, o⟩ tm := by
  intro m hm
  obtain ⟨hstep, hm₁⟩ := hm.step_op rfl (by decide)
  refine ⟨_, hm₁, rfl, rfl, ?_⟩
  rw [hstep]
  show settle (Machine.push m.fetched.tm m.fetched) = _
  rw [hm₁.tm_eq]

theorem lfp : Pushing P (.op .lfp) ⟨k, S, H, fp, ra, tm, o⟩ (Int64.ofNat fp) := by
  intro m hm
  obtain ⟨hstep, hm₁⟩ := hm.step_op rfl (by decide)
  refine ⟨_, hm₁, rfl, rfl, ?_⟩
  rw [hstep]
  show settle (Machine.push m.fetched.fp m.fetched) = _
  rw [hm₁.fp_eq]

theorem lhp : Pushing P (.op .lhp) ⟨k, S, H, fp, ra, tm, o⟩ (Int64.ofNat H.length) := by
  intro m hm
  obtain ⟨hm₁, hstep⟩ := hm.step_lhp
  exact ⟨_, hm₁, rfl, rfl, hstep⟩

end Pushing

/-- A line that pushes a word leads on unless the stack has met the heap. -/
theorem Runs.pushing (hx : x.width ≠ 0 ∧ x ≠ .op .js)
    (hpushing : Pushing P x ⟨k, S, H, fp, ra, tm, o⟩ w)
    (h : Runs P d ⟨k, w :: S, H, fp, ra, tm, o⟩ Q) : Runs P d ⟨x :: k, S, H, fp, ra, tm, o⟩ Q := by
  refine .of_step rfl hx ?_ ?_ h
  · rintro ⟨hstack, hheap⟩
    simp only [length_cons] at hstack
    exact ⟨by simp only [length_cons]; omega, hheap⟩
  · intro m hm
    obtain ⟨m₁, hm₁, hsp, hhp, hstep⟩ := hpushing m hm
    by_cases hr : m₁.hp < m₁.sp
    · obtain ⟨hpush, hm₂⟩ := hm₁.push hr w
      exact .inr ⟨_, by rw [hstep, hpush, settle], hm₂⟩
    · have hle := hm₁.hp_le
      have hfail : Machine.push w m₁ = .error .stackOverflow m₁ := by
        rw [Machine.push, if_pos (by omega)]
      exact .inl ⟨by omega, .inl ⟨m₁, by rw [hstep, hfail, settle]⟩⟩

theorem Runs.push {n : Int} (h : Runs P d ⟨k, Int64.ofInt n :: S, H, fp, ra, tm, o⟩ Q) :
    Runs P d ⟨.push n :: k, S, H, fp, ra, tm, o⟩ Q :=
  .pushing (by simp [width]) .push h

theorem Runs.pushLabel
    (h : Runs P d ⟨k, Int64.ofNat (address l P.lines) :: S, H, fp, ra, tm, o⟩ Q) :
    Runs P d ⟨.pushLabel (some l) :: k, S, H, fp, ra, tm, o⟩ Q :=
  .pushing (by simp [width]) .pushLabel h

theorem Runs.lra (h : Runs P d ⟨k, ra :: S, H, fp, ra, tm, o⟩ Q) :
    Runs P d ⟨.op .lra :: k, S, H, fp, ra, tm, o⟩ Q :=
  .pushing (by simp [width]) .lra h

theorem Runs.ltm (h : Runs P d ⟨k, tm :: S, H, fp, ra, tm, o⟩ Q) :
    Runs P d ⟨.op .ltm :: k, S, H, fp, ra, tm, o⟩ Q :=
  .pushing (by simp [width]) .ltm h

theorem Runs.lfp (h : Runs P d ⟨k, Int64.ofNat fp :: S, H, fp, ra, tm, o⟩ Q) :
    Runs P d ⟨.op .lfp :: k, S, H, fp, ra, tm, o⟩ Q :=
  .pushing (by simp [width]) .lfp h

theorem Runs.lhp (h : Runs P d ⟨k, Int64.ofNat H.length :: S, H, fp, ra, tm, o⟩ Q) :
    Runs P d ⟨.op .lhp :: k, S, H, fp, ra, tm, o⟩ Q :=
  .pushing (by simp [width]) .lhp h

/-! ### Lines that do not lengthen the stack -/

/-- What an instruction without operand does, whatever the room. -/
def Effects (P : Setup) (i : Opcode) (c c' : Config) : Prop :=
  ∀ m, Holds P m c → ∃ m', Machine.execute P.code i m = .ok () m' ∧ Holds P m' c'

/-- An arithmetic instruction. -/
theorem Holds.arithmetic (hm : Holds P m ⟨k, v :: u :: S, H, fp, ra, tm, o⟩)
    (f : Word → Word → Word) :
    ∃ m', Machine.arithmetic f m = .ok () m' ∧ Holds P m' ⟨k, f u v :: S, H, fp, ra, tm, o⟩ := by
  obtain ⟨hpop, hm₁⟩ := hm.pop rfl
  obtain ⟨hpop', hm₂⟩ := hm₁.pop rfl
  obtain ⟨hpush, hm₃⟩ := hm₂.push (Nat.lt_succ_of_le hm₁.hp_le) (f u v)
  exact ⟨_, by simp only [Machine.arithmetic, bind, EStateM.bind, hpop, hpop', hpush], hm₃⟩

theorem Holds.popTo (hm : Holds P m ⟨k, w :: S, H, fp, ra, tm, o⟩)
    (set : Machine → Word → Machine) :
    Machine.popTo set m = .ok () (set { m with sp := m.sp + 1 } w) := by
  rw [Machine.popTo, (hm.pop rfl).1]

namespace Effects

theorem pop : Effects P .pop ⟨k, w :: S, H, fp, ra, tm, o⟩ ⟨k, S, H, fp, ra, tm, o⟩ := by
  intro m hm
  obtain ⟨hpop, hm₁⟩ := hm.pop rfl
  exact ⟨_, by simp only [Machine.execute, bind, EStateM.bind, hpop]; rfl, hm₁⟩

theorem add :
    Effects P .add ⟨k, v :: u :: S, H, fp, ra, tm, o⟩ ⟨k, (u + v) :: S, H, fp, ra, tm, o⟩ :=
  fun _ hm => hm.arithmetic _

theorem sub :
    Effects P .sub ⟨k, v :: u :: S, H, fp, ra, tm, o⟩ ⟨k, (u - v) :: S, H, fp, ra, tm, o⟩ :=
  fun _ hm => hm.arithmetic _

theorem mult :
    Effects P .mult ⟨k, v :: u :: S, H, fp, ra, tm, o⟩ ⟨k, (u * v) :: S, H, fp, ra, tm, o⟩ :=
  fun _ hm => hm.arithmetic _

theorem div (hv : v ≠ 0) :
    Effects P .div ⟨k, v :: u :: S, H, fp, ra, tm, o⟩ ⟨k, (u / v) :: S, H, fp, ra, tm, o⟩ := by
  intro m hm
  obtain ⟨hpop, hm₁⟩ := hm.pop rfl
  obtain ⟨hpop', hm₂⟩ := hm₁.pop rfl
  obtain ⟨hpush, hm₃⟩ := hm₂.push (Nat.lt_succ_of_le hm₁.hp_le) (u / v)
  refine ⟨_, ?_, hm₃⟩
  simp only [Machine.execute, Machine.divide, bind, EStateM.bind, hpop, hpop', if_neg hv, hpush]

/-- A live cell is loaded by its address. -/
theorem lw {a : Nat} (hcell : Cell P.size H S a w) :
    Effects P .lw ⟨k, Int64.ofNat a :: S, H, fp, ra, tm, o⟩ ⟨k, w :: S, H, fp, ra, tm, o⟩ := by
  intro m hm
  obtain ⟨hpop, hm₁⟩ := hm.pop rfl
  obtain ⟨hpush, hm₂⟩ := hm₁.push (Nat.lt_succ_of_le hm.hp_le) w
  exact ⟨_, by simp only [Machine.execute, bind, EStateM.bind, hpop, hm₁.load hcell, hpush], hm₂⟩

theorem sra : Effects P .sra ⟨k, w :: S, H, fp, ra, tm, o⟩ ⟨k, S, H, fp, w, tm, o⟩ :=
  fun _ hm => ⟨_, hm.popTo _, { (hm.pop rfl).2 with ra_eq := rfl }⟩

theorem stm : Effects P .stm ⟨k, w :: S, H, fp, ra, tm, o⟩ ⟨k, S, H, fp, ra, w, o⟩ :=
  fun _ hm => ⟨_, hm.popTo _, { (hm.pop rfl).2 with tm_eq := rfl }⟩

theorem sfp {a : Nat} :
    Effects P .sfp ⟨k, Int64.ofNat a :: S, H, fp, ra, tm, o⟩ ⟨k, S, H, a, ra, tm, o⟩ :=
  fun _ hm => ⟨_, hm.popTo _, { (hm.pop rfl).2 with fp_eq := rfl }⟩

/-- The frame pointer is set to the top of the stack. -/
theorem cfp : Effects P .cfp ⟨k, S, H, fp, ra, tm, o⟩ ⟨k, S, H, P.size - S.length, ra, tm, o⟩ := by
  intro m hm
  have hsp : m.sp = P.size - S.length := by
    have := hm.sp_eq
    simp only at this
    omega
  exact ⟨_, rfl, { hm with fp_eq := by show Int64.ofNat m.sp = _; rw [hsp] }⟩

theorem print :
    Effects P .print ⟨k, w :: S, H, fp, ra, tm, o⟩ ⟨k, w :: S, H, fp, ra, tm, w :: o⟩ := by
  intro m hm
  have htop : m.top? = some w := hm.top rfl
  refine ⟨{ m with printed := w :: m.printed }, ?_, { hm with printed_eq := ?_ }⟩
  · simp only [Machine.execute, Machine.print, htop]
  · show w :: m.printed = w :: o
    rw [hm.printed_eq]

end Effects

/-- The step of a line without operand. -/
theorem Effects.step {c' : Config} (hi : i ≠ .halt) (heff : Effects P i ⟨k, S, H, fp, ra, tm, o⟩ c')
    (hm : Holds P m ⟨.op i :: k, S, H, fp, ra, tm, o⟩) :
    ∃ m', Machine.step P.code m = .running m' ∧ Holds P m' c' := by
  obtain ⟨hstep, hm₁⟩ := hm.step_op rfl hi
  obtain ⟨m', hm', hh⟩ := heff _ hm₁
  exact ⟨m', by rw [hstep, hm', settle], hh⟩

/-- A line without operand that leads on whatever the room. -/
theorem Runs.of_effect {c' : Config} {S' : List Word} (hi : i ≠ .halt ∧ i ≠ .js)
    (hc : c'.code = k ∧ c'.stack = S' ∧ c'.heap = H) (hS : S'.length ≤ S.length)
    (heff : Effects P i ⟨k, S, H, fp, ra, tm, o⟩ c') (h : Runs P d c' Q) :
    Runs P d ⟨.op i :: k, S, H, fp, ra, tm, o⟩ Q := by
  refine .of_step rfl ⟨by simp [width], by simpa using hi.2⟩ ?_ ?_ h
  · rintro ⟨hstack, hheap⟩
    simp only [length_cons] at hstack
    obtain ⟨hcode, hS', hH⟩ := hc
    exact ⟨by rw [hcode, hS']; omega, by rw [hH]; exact hheap⟩
  · exact fun m hm => .inr (heff.step hi.1 hm)

theorem Runs.pop (h : Runs P d ⟨k, S, H, fp, ra, tm, o⟩ Q) :
    Runs P d ⟨.op .pop :: k, w :: S, H, fp, ra, tm, o⟩ Q :=
  .of_effect (by decide) ⟨rfl, rfl, rfl⟩ (by simp) .pop h

theorem Runs.add (h : Runs P d ⟨k, (u + v) :: S, H, fp, ra, tm, o⟩ Q) :
    Runs P d ⟨.op .add :: k, v :: u :: S, H, fp, ra, tm, o⟩ Q :=
  .of_effect (by decide) ⟨rfl, rfl, rfl⟩ (by simp) .add h

theorem Runs.sub (h : Runs P d ⟨k, (u - v) :: S, H, fp, ra, tm, o⟩ Q) :
    Runs P d ⟨.op .sub :: k, v :: u :: S, H, fp, ra, tm, o⟩ Q :=
  .of_effect (by decide) ⟨rfl, rfl, rfl⟩ (by simp) .sub h

theorem Runs.mult (h : Runs P d ⟨k, (u * v) :: S, H, fp, ra, tm, o⟩ Q) :
    Runs P d ⟨.op .mult :: k, v :: u :: S, H, fp, ra, tm, o⟩ Q :=
  .of_effect (by decide) ⟨rfl, rfl, rfl⟩ (by simp) .mult h

theorem Runs.div (hv : v ≠ 0) (h : Runs P d ⟨k, (u / v) :: S, H, fp, ra, tm, o⟩ Q) :
    Runs P d ⟨.op .div :: k, v :: u :: S, H, fp, ra, tm, o⟩ Q :=
  .of_effect (by decide) ⟨rfl, rfl, rfl⟩ (by simp) (.div hv) h

theorem Runs.lw {a : Nat} (hcell : Cell P.size H S a w)
    (h : Runs P d ⟨k, w :: S, H, fp, ra, tm, o⟩ Q) :
    Runs P d ⟨.op .lw :: k, Int64.ofNat a :: S, H, fp, ra, tm, o⟩ Q :=
  .of_effect (by decide) ⟨rfl, rfl, rfl⟩ (by simp) (.lw hcell) h

theorem Runs.sra (h : Runs P d ⟨k, S, H, fp, w, tm, o⟩ Q) :
    Runs P d ⟨.op .sra :: k, w :: S, H, fp, ra, tm, o⟩ Q :=
  .of_effect (by decide) ⟨rfl, rfl, rfl⟩ (by simp) .sra h

theorem Runs.stm (h : Runs P d ⟨k, S, H, fp, ra, w, o⟩ Q) :
    Runs P d ⟨.op .stm :: k, w :: S, H, fp, ra, tm, o⟩ Q :=
  .of_effect (by decide) ⟨rfl, rfl, rfl⟩ (by simp) .stm h

theorem Runs.sfp {a : Nat} (h : Runs P d ⟨k, S, H, a, ra, tm, o⟩ Q) :
    Runs P d ⟨.op .sfp :: k, Int64.ofNat a :: S, H, fp, ra, tm, o⟩ Q :=
  .of_effect (by decide) ⟨rfl, rfl, rfl⟩ (by simp) .sfp h

theorem Runs.cfp (h : Runs P d ⟨k, S, H, P.size - S.length, ra, tm, o⟩ Q) :
    Runs P d ⟨.op .cfp :: k, S, H, fp, ra, tm, o⟩ Q :=
  .of_effect (by decide) ⟨rfl, rfl, rfl⟩ (Nat.le_refl _) .cfp h

theorem Runs.print (h : Runs P d ⟨k, w :: S, H, fp, ra, tm, w :: o⟩ Q) :
    Runs P d ⟨.op .print :: k, w :: S, H, fp, ra, tm, o⟩ Q :=
  .of_effect (by decide) ⟨rfl, rfl, rfl⟩ (Nat.le_refl _) .print h

/-- A mark fills no cell. -/
theorem Holds.mark (hm : Holds P m ⟨.mark l :: k, S, H, fp, ra, tm, o⟩) :
    Holds P m ⟨k, S, H, fp, ra, tm, o⟩ := by
  have hs := hm.code_suffix
  refine { hm with code_suffix := (suffix_cons _ _).trans hs, ip_eq := ?_ }
  rw [hm.ip_eq, place_cons hs]
  rfl

theorem Runs.mark (h : Runs P d ⟨k, S, H, fp, ra, tm, o⟩ Q) :
    Runs P d ⟨.mark l :: k, S, H, fp, ra, tm, o⟩ Q := by
  rintro ⟨hstack, hheap⟩ m hm
  refine h ⟨?_, hheap⟩ m hm.mark
  simp only [length_cons] at hstack
  simp only
  omega

/-! ### Branches -/

/-- What a branch tests. -/
def Branch.test : Branch → Word → Word → Prop
  | .always, _, _ => True
  | .equal, u, v => u = v
  | .lessEqual, u, v => u ≤ v

instance Branch.decidableTest : (b : Branch) → (u v : Word) → Decidable (b.test u v)
  | .always, _, _ => .isTrue trivial
  | .equal, u, v => inferInstanceAs (Decidable (u = v))
  | .lessEqual, u, v => inferInstanceAs (Decidable (u ≤ v))

/-- A step to a later place in the same code. -/
theorem Runs.of_forward {S' : List Word} (hx : x.width ≠ 0 ∧ x ≠ .op .js) (hk : k' <:+ k)
    (hS : S'.length ≤ S.length) (hstep : ∀ m, Holds P m ⟨x :: k, S, H, fp, ra, tm, o⟩ → ∃ m',
      Machine.step P.code m = .running m' ∧ Holds P m' ⟨k', S', H, fp, ra, tm, o⟩)
    (h : Runs P d ⟨k', S', H, fp, ra, tm, o⟩ Q) : Runs P d ⟨x :: k, S, H, fp, ra, tm, o⟩ Q := by
  refine .of_step rfl hx ?_ (fun m hm => .inr (hstep m hm)) h
  rintro ⟨hstack, hheap⟩
  have hle := hk.length_le
  simp only [length_cons] at hstack
  exact ⟨by simp only; omega, hheap⟩

/-- The label of a mark ahead is the address of the lines after the mark. -/
theorem Holds.address_eq {c : Config} (hm : Holds P m c) (hk : .mark l :: k' <:+ c.code) :
    address l P.lines = place P.lines k' ∧ k' <:+ P.lines := by
  have hs := hk.trans hm.code_suffix
  exact ⟨address_eq_place P.marks_nodup hs, (suffix_cons _ _).trans hs⟩

/-- A branch that is always taken. -/
theorem Holds.branch_always (hk : .mark l :: k' <:+ k)
    (hm : Holds P m ⟨.branch .always l :: k, S, H, fp, ra, tm, o⟩) :
    ∃ m', Machine.step P.code m = .running m' ∧ Holds P m' ⟨k', S, H, fp, ra, tm, o⟩ := by
  obtain ⟨hstep, hop, hm₁⟩ := hm.step_operand (o := .b) rfl rfl rfl (by decide)
  obtain ⟨haddr, hs⟩ := hm₁.address_eq hk
  refine ⟨_, ?_, hm₁.jump hs⟩
  rw [hstep]
  simp only [Machine.execute, bind, EStateM.bind, hop, Machine.jump, haddr, settle]

theorem Runs.branch_always (hk : .mark l :: k' <:+ k) (h : Runs P d ⟨k', S, H, fp, ra, tm, o⟩ Q) :
    Runs P d ⟨.branch .always l :: k, S, H, fp, ra, tm, o⟩ Q := by
  refine .of_forward (by simp [width]) ((suffix_cons _ _).trans hk) (Nat.le_refl _) ?_ h
  exact fun m hm => hm.branch_always hk

/-- How a branch with a test is begun: the operand is read and two values are popped. -/
theorem Holds.branchIf {t : Word → Word → Bool} {target : Word}
    (hm : Holds P m ⟨x :: k, v :: u :: S, H, fp, ra, tm, o⟩)
    (hx : x.cells (fun l => address l P.lines) = [Int64.ofNat i.code, target])
    (hw : x.width = 2) (hi : i ≠ .halt)
    (hexec : Machine.execute P.code i = Machine.branchIf P.code t) :
    ∃ m₁, Holds P m₁ ⟨k, S, H, fp, ra, tm, o⟩ ∧
      Machine.step P.code m = .running (if t u v then { m₁ with ip := target } else m₁) := by
  obtain ⟨hstep, hop, hm₁⟩ := hm.step_operand rfl hx hw hi
  obtain ⟨hpop, hm₂⟩ := hm₁.pop rfl
  obtain ⟨hpop', hm₃⟩ := hm₂.pop rfl
  refine ⟨_, hm₃, ?_⟩
  rw [hstep, hexec]
  simp only [Machine.branchIf, bind, EStateM.bind, hop, hpop, hpop']
  cases t u v <;> rfl

/-- A branch with a test pops two words and goes to its label or on, as the test says. -/
theorem Holds.branch (hb : b ≠ .always)
    (hm : Holds P m ⟨.branch b l :: k, v :: u :: S, H, fp, ra, tm, o⟩) :
    ∃ m₁, Holds P m₁ ⟨k, S, H, fp, ra, tm, o⟩ ∧
      (b.test u v → Machine.step P.code m =
        .running { m₁ with ip := Int64.ofNat (address l P.lines) }) ∧
      (¬ b.test u v → Machine.step P.code m = .running m₁) := by
  cases b with
  | always => exact absurd rfl hb
  | equal =>
    obtain ⟨m₁, hm₁, hstep⟩ := hm.branchIf (i := .beq) rfl rfl (by decide) rfl
    refine ⟨m₁, hm₁, fun h => ?_, fun h => ?_⟩
    · simpa [show u = v from h] using hstep
    · simpa [show ¬ u = v from h] using hstep
  | lessEqual =>
    obtain ⟨m₁, hm₁, hstep⟩ := hm.branchIf (i := .bleq) rfl rfl (by decide) rfl
    refine ⟨m₁, hm₁, fun h => ?_, fun h => ?_⟩
    · simpa [show u ≤ v from h] using hstep
    · simpa [show ¬ u ≤ v from h] using hstep

/-- A branch goes forward, so the line with its label is among those behind it. -/
theorem Runs.branch_taken (hb : b ≠ .always) (ht : b.test u v) (hk : .mark l :: k' <:+ k)
    (h : Runs P d ⟨k', S, H, fp, ra, tm, o⟩ Q) :
    Runs P d ⟨.branch b l :: k, v :: u :: S, H, fp, ra, tm, o⟩ Q := by
  refine .of_forward (by simp [width]) ((suffix_cons _ _).trans hk) (by simp; omega) ?_ h
  intro m hm
  obtain ⟨m₁, hm₁, hyes, -⟩ := hm.branch hb
  obtain ⟨haddr, hs⟩ := hm₁.address_eq hk
  exact ⟨_, by rw [hyes ht, haddr], hm₁.jump hs⟩

theorem Runs.branch_not_taken (hb : b ≠ .always) (ht : ¬ b.test u v)
    (h : Runs P d ⟨k, S, H, fp, ra, tm, o⟩ Q) :
    Runs P d ⟨.branch b l :: k, v :: u :: S, H, fp, ra, tm, o⟩ Q := by
  refine .of_forward (by simp [width]) (suffix_refl k) (by simp; omega) ?_ h
  intro m hm
  obtain ⟨m₁, hm₁, -, hno⟩ := hm.branch hb
  exact ⟨m₁, hno ht, hm₁⟩

/-! ### Calls -/

/-- Jump to a place by its address and keep the address of the line after the jump. -/
theorem Holds.js (hk' : k' <:+ P.lines)
    (hm : Holds P m ⟨.op .js :: k, Int64.ofNat (place P.lines k') :: S, H, fp, ra, tm, o⟩) :
    ∃ m', Machine.step P.code m = .running m' ∧
      Holds P m' ⟨k', S, H, fp, Int64.ofNat (place P.lines k), tm, o⟩ := by
  obtain ⟨hstep, hm₁⟩ := hm.step_op rfl (by decide)
  obtain ⟨hpop, hm₂⟩ := hm₁.pop rfl
  refine ⟨{ m.fetched with
    sp := m.fetched.sp + 1
    ip := Int64.ofNat (place P.lines k')
    ra := m.fetched.ip }, ?_, { hm₂.jump hk' with ra_eq := hm₁.ip_eq }⟩
  rw [hstep]
  simp only [Machine.execute, bind, EStateM.bind, hpop]
  rfl

/-- The room that a call leaves for the routine, which may be any tail of the lines. -/
theorem Fits.entry (hb : body <:+ P.lines) (h : Fits P (d + 1) ⟨x :: k, w :: S, H, fp, ra, tm, o⟩)
    {ra' : Word} : Fits P d ⟨body, S, H, fp, ra', tm, o⟩ := by
  obtain ⟨hstack, hheap⟩ := h
  have hle := hb.length_le
  simp only [length_cons, Nat.succ_mul] at hstack
  exact ⟨by simp only; omega, hheap⟩

/-- A call is ready if its routine takes as many arguments as it passes. -/
theorem Holds.ready_call (hl : Line.Takes P.lines l (passed P.lines k)) (hm : Holds P m
      ⟨.op .js :: k, Int64.ofNat (address l P.lines) :: S, H, fp, ra, tm, o⟩) : Ready P m where
  listed := hm.listed rfl (by simp [width])
  aims := fun _ => ⟨k, l, hm.code_suffix, hm.ip_eq, hm.top rfl, hl⟩

/-- A return is ready. -/
theorem Holds.ready_return (hbefore : .op .lra :: .op .js :: k <:+ P.lines)
    (hm : Holds P m ⟨.op .js :: k, S, H, fp, ra, tm, o⟩) : Ready P m where
  listed := hm.listed rfl (by simp [width])
  aims := by
    intro hcalls
    rw [hm.turn_returns rfl hbefore] at hcalls
    cases hcalls

theorem Leads.call (hl : .mark l :: body <:+ P.lines)
    (htakes : Line.Takes P.lines l (passed P.lines k))
    (hf : Fits P d ⟨.op .js :: k, Int64.ofNat (address l P.lines) :: S, H, fp, ra, tm, o⟩)
    (h : Leads P ⟨body, S, H, fp, Int64.ofNat (place P.lines k), tm, o⟩ Q) :
    Leads P ⟨.op .js :: k, Int64.ofNat (address l P.lines) :: S, H, fp, ra, tm, o⟩ Q := by
  refine .of_ready hf (fun m hm => .inr ⟨hm.ready_call htakes, ?_⟩) h
  rw [address_eq_place P.marks_nodup hl] at hm
  exact hm.js ((suffix_cons _ _).trans hl)

/-- A routine that comes back: it ends with a jump to the address that it was called with, and has
left at most one word more than it was given. -/
theorem Runs.call (hl : .mark l :: body <:+ P.lines)
    (htakes : Line.Takes P.lines l (passed P.lines k))
    (h : Runs P d ⟨body, S, H, fp, Int64.ofNat (place P.lines k), tm, o⟩ fun c =>
      ∃ rest T, c.code = .op .js :: rest ∧ .op .lra :: .op .js :: rest <:+ P.lines ∧
        c.stack = Int64.ofNat (place P.lines k) :: T ∧ T.length ≤ S.length + 1 ∧
        ∀ ra, Q ⟨k, T, c.heap, c.fp, ra, c.tm, c.printed⟩) :
    Runs P (d + 1)
      ⟨.op .js :: k, Int64.ofNat (address l P.lines) :: S, H, fp, ra, tm, o⟩ Q := by
  intro hf m hm
  have hk : k <:+ P.lines := (suffix_cons _ _).trans hm.code_suffix
  refine Leads.call hl htakes hf ((h (hf.entry ((suffix_cons _ _).trans hl))).trans ?_) m hm
  rintro ⟨code, stack, H', fp', ra', tm', o'⟩ ⟨hf', rest, T, hcode, hbefore, hstack, hT, hQ⟩
  subst hcode hstack
  have hfits : Fits P (d + 1) ⟨k, T, H', fp', Int64.ofNat (place P.lines rest), tm', o'⟩ := by
    refine ⟨?_, hf'.2⟩
    have hlim := hf.1
    simp only [length_cons] at hlim ⊢
    omega
  exact .of_ready hf' (fun m hm => .inr ⟨hm.ready_return hbefore, hm.js hk⟩) (.refl ⟨hfits, hQ _⟩)

/-- A routine that does not come back. -/
theorem Stops.call (hl : .mark l :: body <:+ P.lines)
    (htakes : Line.Takes P.lines l (passed P.lines k))
    (h : Stops P d ⟨body, S, H, fp, Int64.ofNat (place P.lines k), tm, o⟩ Q) :
    Stops P (d + 1)
      ⟨.op .js :: k, Int64.ofNat (address l P.lines) :: S, H, fp, ra, tm, o⟩ Q :=
  fun hf => .call hl htakes hf (h (hf.entry ((suffix_cons _ _).trans hl)))

end Foolscap
