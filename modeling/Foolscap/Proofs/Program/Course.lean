import Foolscap.Proofs.Machine.Course
import Foolscap.Proofs.Machine.Listing
import Foolscap.Proofs.Program.Startup

/-!
# Courses of compiled programs

What a run of a compiled program does, step by step, told by the evaluation of its tree.

## Design Notes

A course belongs to a number of calls that may be nested.  The conclusion of an evaluation that
needs more of them says only that the stack is at least as high, so a number above the size of the
memory leaves it no conclusion: that is how runs without any bound on calls are dealt with.
-/

namespace Foolscap

/-! ### Conclusions -/

/-- The machine is about to read the dispatch pointer of null: in the code of a method call, behind
the load of the receiver. -/
def AtNullReceiver (lines : List Line) (m : Machine) : Prop :=
  ∃ use slot k, Code.load use ++ (Code.dispatch slot ++ k) <:+ lines ∧
    m.ip = Int64.ofNat (Line.place lines
      (.op .lw :: .push slot :: .op .add :: .op .lw :: .op .js :: k)) ∧
    m.top? = some Word.null

/-- The next step ends a run as an evaluation ends. -/
def Machine.Concludes (lines : List Line) (code : Array Word) (size depth : Nat) (m : Machine) :
    EStateM.Result Abort Store Word → Prop
  | .ok v st => ∃ m', m.step code = .halted m' ∧ m'.printed = st.printed ∧ m'.top? = some v ∧
      m'.hp = st.next
  | .error .divisionByZero st => ∃ m', m.step code = .failed .divisionByZero m' ∧
      m'.printed = st.printed
  | .error .nullReceiver st => AtNullReceiver lines m ∧
      ∃ m', m.step code = .failed .invalidAddress m' ∧ m'.printed = st.printed
  | .error .unfinished _ => depth + m.sp ≤ size
  | .error .stuck _ => False

section

variable {P : Setup} {m : Machine} {k : List Line} {S H : List Word} {fp : Nat} {ra tm u w : Word}
  {o : List Word}

theorem Holds.halts (h : Holds P m ⟨.op .halt :: k, w :: S, H, fp, ra, tm, o⟩) :
    ∃ m', m.step P.code = .halted m' ∧ m'.printed = o ∧ m'.top? = some w ∧ m'.hp = H.length :=
  ⟨m.fetched, Machine.step_eq_halted (h.fetch rfl rfl), h.printed_eq, h.top rfl, h.hp_eq⟩

theorem Holds.fails_div (h : Holds P m ⟨.op .div :: k, 0 :: u :: S, H, fp, ra, tm, o⟩) :
    ∃ m', m.step P.code = .failed .divisionByZero m' ∧ m'.printed = o := by
  obtain ⟨hstep, hm₁⟩ := h.step_op rfl (by decide)
  obtain ⟨hpop, hm₂⟩ := hm₁.pop rfl
  obtain ⟨hpop', hm₃⟩ := hm₂.pop rfl
  refine ⟨_, ?_, hm₃.printed_eq⟩
  rw [hstep]
  simp only [Machine.execute, Machine.divide, bind, EStateM.bind, hpop, hpop']
  rfl

theorem Holds.fails_lw (h : Holds P m ⟨.op .lw :: k, Word.null :: S, H, fp, ra, tm, o⟩) :
    ∃ m', m.step P.code = .failed .invalidAddress m' ∧ m'.printed = o := by
  obtain ⟨hstep, hm₁⟩ := h.step_op rfl (by decide)
  obtain ⟨hpop, hm₂⟩ := hm₁.pop rfl
  refine ⟨_, ?_, hm₂.printed_eq⟩
  have hload : ∀ m : Machine, Machine.load Word.null m = .error .invalidAddress m := by
    intro m
    rw [Machine.load, Machine.load?, if_pos (by decide)]
  rw [hstep]
  simp only [Machine.execute, bind, EStateM.bind, hpop, hload]
  rfl

end

/-- A machine that is at the end of an evaluation concludes its run. -/
theorem Holds.concludes {L : Loaded} {m : Machine} {c : Config} {d : Nat}
    {r : EStateM.Result Abort Store Word} (h : Holds L.toSetup m c) (hend : AtEnd L d c r) :
    m.Concludes L.lines L.code L.size d r ∧
      (Listed L.toSetup m ∨ ∃ st, r = .error .unfinished st) := by
  cases r with
  | ok v st =>
    obtain ⟨k, S, fp, ⟨ra, tm, rfl⟩, hst⟩ := hend
    refine ⟨?_, .inl (h.listed rfl (by decide))⟩
    rw [Machine.Concludes, ← hst.sized]
    exact h.halts
  | error e st =>
    cases hend with
    | divisionByZero => exact ⟨h.fails_div, .inl (h.listed rfl (by decide))⟩
    | nullReceiver hcode =>
      exact ⟨⟨⟨_, _, _, hcode, h.ip_eq, h.top rfl⟩, h.fails_lw⟩, .inl (h.listed rfl (by decide))⟩
    | unfinished hheight =>
      refine ⟨?_, .inr ⟨st, rfl⟩⟩
      have hsp := h.sp_eq
      rw [Machine.Concludes]
      omega

/-! ### Courses -/

/-- A run of a program that comes to a machine after so many steps: every step before starts at an
instruction as it is listed and leads on, and those that are calls go to routines that take what is
passed.  The next step concludes the run, unless the stack has met
the heap in a memory that is no larger than what nested calls and objects may take. -/
structure Course (p : Program) (x : Executable) (m : Machine) (d n : Nat) (m' : Machine) :
    Prop where
  run : m.reset.run x.code n = .running m'
  before : ∀ i < n, ∃ m₁ m₂, m.reset.run x.code i = .running m₁ ∧ x.ListsIp m₁ ∧
    m₁.step x.code = .running m₂
  aims : ∀ i < n, ∀ m₁, m.reset.run x.code i = .running m₁ → m₁.Aims p.lines x.code
  ends : (Spent x.code m' ∧
      m.memory.size ≤ (d + 1) * p.lines.length + (Abort.storeOf (p.evaluate d)).next) ∨
    m'.Concludes p.lines x.code m.memory.size d (p.evaluate d) ∧
      (x.ListsIp m' ∨ ∃ st, p.evaluate d = .error .unfinished st)

/-- Every run of an accepted program has a course. -/
theorem Program.Accepted.course {p : Program} (h : p.Accepted) (hweight : p.weight < Word.limit)
    (hextent : Line.extent p.lines < Word.limit) {x : Executable}
    (hx : x.code.toList = Line.linked p.lines) {m : Machine} (hm : m.memory.size < Word.limit)
    (d : Nat) : ∃ n m', Course p x m d n m' := by
  let B : p.Room := ⟨m.memory.size, (d + 1) * p.lines.length,
    (Abort.storeOf (p.evaluate d)).next, hm, hextent⟩
  have hcode : x.code = (h.loaded B).code := by
    rw [← x.code.toArray_toList, hx]
    rfl
  have hlists : ∀ {m₁}, Listed (h.loaded B).toSetup m₁ → x.ListsIp m₁ :=
    fun hl => hl.listsIp (h.linkable hweight) hcode
  obtain ⟨m', hpath, hend⟩ := h.path B (m := m) rfl (Nat.le_refl _) (Nat.le_refl _)
  obtain ⟨n, hrun, hbefore⟩ := Path.run hpath
  rw [← hcode] at hrun hbefore
  refine ⟨n, m', hrun, fun i hi => ?_, fun i hi m₁ hm₁ => ?_, ?_⟩
  · obtain ⟨m₁, m₂, hm₁, hready, hstep⟩ := hbefore i hi
    exact ⟨m₁, m₂, hm₁, hlists hready.listed, hstep⟩
  · obtain ⟨m₂, -, hm₂, hready, -⟩ := hbefore i hi
    obtain rfl : m₂ = m₁ := Machine.Outcome.running.inj (hm₂.symm.trans hm₁)
    rw [hcode]
    exact hready.aims
  · rw [hcode]
    refine hend.imp_right ?_
    rintro ⟨c, hm', hc⟩
    obtain ⟨hconcludes, hl⟩ := hm'.concludes hc
    exact ⟨hconcludes, hl.imp_left hlists⟩

variable {source : Text} {c : Compilation}

/-- A compiled program was accepted and can be assembled. -/
theorem linked_of_compile (h : (compile source).value = .ok c)
    (hsource : source.length < Word.limit) :
    ∃ p x, Program.parse source = .ok p ∧ p.Accepted ∧ p.weight < Word.limit ∧
      Executable.assemble c.assembly = .ok x ∧ c.code.lines = p.lines ∧
      x.code.toList = Line.linked p.lines := by
  obtain ⟨p, hparse, haccepted, hc⟩ := accepted_of_compile h
  have hlines : c.code.lines = p.lines := by rw [hc, Program.lines]
  have hweight : p.weight < Word.limit :=
    Nat.lt_of_le_of_lt (Program.weight_le_of_parse hparse) hsource
  obtain ⟨x, hx, hcells⟩ := Line.assemble_textOf (haccepted.linkable hweight)
  refine ⟨p, x, hparse, haccepted, hweight, ?_, hlines, hcells⟩
  rw [Compilation.assembly, hlines]
  exact hx

/-- What can be read off the cells that the lines of a compiled program fill holds of the program
that is assembled from its text. -/
theorem assembled_of_any {x : Executable} {q : Compilation → Array Word → Bool}
    (hc : (compile source).value = .ok c) (hsource : source.length < Word.limit)
    (hx : Executable.assemble c.assembly = .ok x)
    (h : (compile source).value.toOption.any fun c => q c (Line.linked c.code.lines).toArray) :
    q c x.code := by
  obtain ⟨c', hc', hq⟩ := exists_ok_of_any h
  obtain rfl : c' = c := Except.ok.inj (hc'.symm.trans hc)
  obtain ⟨p, x', -, -, -, hx', hlines, hcells⟩ := linked_of_compile hc hsource
  obtain rfl : x' = x := Except.ok.inj (hx'.symm.trans hx)
  rwa [hlines, ← hcells, Array.toArray_toList] at hq

/-- A compiled program can be assembled, and every run of it has a course. -/
theorem course_of_compile (h : (compile source).value = .ok c)
    (hsource : source.length < Word.limit) (hcode : Line.extent c.code.lines < Word.limit) :
    ∃ p x, Program.parse source = .ok p ∧ Executable.assemble c.assembly = .ok x ∧
      c.code.lines = p.lines ∧
      ∀ m : Machine, m.memory.size < Word.limit → ∀ d, ∃ n m', Course p x m d n m' := by
  obtain ⟨p, x, hparse, haccepted, hweight, hx, hlines, hcells⟩ := linked_of_compile h hsource
  rw [hlines] at hcode
  exact ⟨p, x, hparse, hx, hlines, fun m hm d => haccepted.course hweight hcode hcells hm d⟩

end Foolscap
