import Foolscap.Proofs.Program.Correctness

/-!
# Safety and termination of compiled programs

Until its stack first meets its heap, a compiled program executes its own instructions only, and the
only faults are divisions by zero and method calls on null.  Every run halts, ends in a fault or has
its stack meet its heap.

## Design Notes

Both rest on the courses of runs for more nested calls than the memory has cells.  Such a course has
no end but the conclusion of an evaluation that finished, or the meeting of stack and heap.
-/

namespace Foolscap

namespace Machine

/-- Stack and heap do not meet in a machine that is still running. -/
def Outcome.Apart : Outcome → Prop
  | .running m => m.hp < m.sp
  | .halted _ | .failed _ _ => True

instance : DecidablePred Outcome.Apart
  | .running m => inferInstanceAs (Decidable (m.hp < m.sp))
  | .halted _ | .failed _ _ => inferInstanceAs (Decidable True)

/-- Stack and heap have not met after any of so many steps of a run. -/
def Apart (code : Array Word) (m : Machine) (n : Nat) : Prop :=
  ∀ i < n, (m.reset.run code (i + 1)).Apart

instance (code : Array Word) (m : Machine) (n : Nat) : Decidable (m.Apart code n) :=
  inferInstanceAs (Decidable (∀ i < n, (m.reset.run code (i + 1)).Apart))

end Machine

namespace Course

variable {p : Program} {x : Executable} {m m' : Machine} {d n k : Nat} (h : Course p x m d n m')

include h

/-- Stack and heap have not met at the end of a course if they have not before. -/
theorem not_spent (hpos : 0 < m.memory.size) (hapart : m.Apart x.code k) (hle : n ≤ k) :
    ¬ Spent x.code m' := by
  rintro ⟨hmeet, -⟩
  have hrun := h.run
  cases n with
  | zero =>
    cases hrun
    have hsize : m.memory.size = 0 := hmeet
    omega
  | succ n =>
    have hlt := hapart n hle
    rw [hrun] at hlt
    have : m'.hp < m'.sp := hlt
    omega

/-- A run with more nested calls allowed than there are cells ends at an instruction that halts,
divides by zero or calls a method of null, unless stack and heap meet. -/
theorem last_step (hd : m.memory.size < d) (hs : ¬ Spent x.code m') :
    x.ListsIp m' ∧ ((∃ m₁, m'.step x.code = .halted m₁) ∨
      ∃ f m₁, m'.step x.code = .failed f m₁ ∧
        (f = .divisionByZero ∨ f = .invalidAddress ∧ AtNullReceiver p.lines m')) := by
  obtain ⟨hconcludes, hlists⟩ := h.ends.resolve_left fun hspent => hs hspent.1
  have hfinished : ∀ st, p.evaluate d ≠ .error .unfinished st := fun st hr =>
    hs (h.spent_of_unfinished hr hd)
  refine ⟨hlists.resolve_right fun ⟨st, hr⟩ => hfinished st hr, ?_⟩
  cases hr : p.evaluate d with
  | ok v st =>
    rw [hr] at hconcludes
    obtain ⟨m₁, hstep, -⟩ := hconcludes
    exact .inl ⟨m₁, hstep⟩
  | error e st =>
    rw [hr] at hconcludes
    cases e with
    | divisionByZero =>
      obtain ⟨m₁, hstep, -⟩ := hconcludes
      exact .inr ⟨_, m₁, hstep, .inl rfl⟩
    | nullReceiver =>
      obtain ⟨hnull, m₁, hstep, -⟩ := hconcludes
      exact .inr ⟨_, m₁, hstep, .inr ⟨rfl, hnull⟩⟩
    | unfinished => exact absurd hr (hfinished st)
    | stuck => exact hconcludes.elim

/-- A run does not go on behind the end of its course. -/
theorem le_of_running {m₁ : Machine} (hrun : m.reset.run x.code k = .running m₁)
    (hstep : ∀ m₂, m'.step x.code ≠ .running m₂) : k ≤ n := by
  by_contra hlt
  obtain ⟨m₂, hm₂⟩ := Machine.exists_running_of_le hrun (Nat.lt_of_not_le hlt)
  rw [Machine.run_succ_of_running h.run] at hm₂
  exact hstep m₂ hm₂

/-- Every step of a run that is still going belongs to its course, if stack and heap have not
met. -/
theorem lt_of_running (hd : m.memory.size < d) (hpos : 0 < m.memory.size) {m₁ : Machine} {i : Nat}
    (hrun : m.reset.run x.code k = .running m₁) (hapart : m.Apart x.code k) (hi : i < k) :
    i < n := by
  by_contra hge
  have hle : n ≤ k := by omega
  obtain ⟨-, hlast⟩ := h.last_step hd (h.not_spent hpos hapart hle)
  have hkn : k ≤ n := h.le_of_running hrun fun m₂ hstep => by
    rcases hlast with ⟨m₃, hhalts⟩ | ⟨f, m₃, hfails, -⟩
    · cases hstep.symm.trans hhalts
    · cases hstep.symm.trans hfails
  omega

/-- A machine that a run comes to is at an instruction as it is listed, and its next step fails only
by a division by zero or a method call on null, if stack and heap have not met. -/
theorem safe (hd : m.memory.size < d) (hpos : 0 < m.memory.size) {m₁ : Machine}
    (hrun : m.reset.run x.code k = .running m₁) (hapart : m.Apart x.code k) :
    x.ListsIp m₁ ∧ ∀ f m₂, m₁.step x.code = .failed f m₂ →
      f = .divisionByZero ∨ f = .invalidAddress ∧ AtNullReceiver p.lines m₁ := by
  rcases Nat.lt_or_ge k n with hlt | hge
  · obtain ⟨m₁', m₂, hrun', hlists, hstep⟩ := h.before k hlt
    obtain rfl : m₁ = m₁' := Machine.Outcome.running.inj (hrun.symm.trans hrun')
    refine ⟨hlists, fun f m₃ hfails => ?_⟩
    rw [hstep] at hfails
    cases hfails
  · obtain ⟨hlists, hlast⟩ := h.last_step hd (h.not_spent hpos hapart hge)
    have hle : k ≤ n := h.le_of_running hrun fun m₂ hstep => by
      rcases hlast with ⟨m₃, hhalts⟩ | ⟨f, m₃, hfails, -⟩
      · cases hstep.symm.trans hhalts
      · cases hstep.symm.trans hfails
    obtain rfl : k = n := Nat.le_antisymm hle hge
    obtain rfl : m₁ = m' := Machine.Outcome.running.inj (hrun.symm.trans h.run)
    refine ⟨hlists, fun f m₂ hstep => ?_⟩
    rcases hlast with ⟨m₃, hhalts⟩ | ⟨f', m₃, hfails, hf⟩
    · cases hstep.symm.trans hhalts
    · cases hstep.symm.trans hfails
      exact hf

/-- After so many steps a run has stopped, or stack and heap meet. -/
theorem stops (hd : m.memory.size < d) :
    ∃ k, ∀ m₁, m.reset.run x.code k = .running m₁ → m₁.sp = m₁.hp := by
  by_cases hs : Spent x.code m'
  · refine ⟨n, fun m₁ hrun => ?_⟩
    obtain rfl : m₁ = m' := Machine.Outcome.running.inj (hrun.symm.trans h.run)
    exact hs.1
  · refine ⟨n + 1, fun m₁ hrun => ?_⟩
    rw [Machine.run_succ_of_running h.run] at hrun
    obtain ⟨-, ⟨m₂, hhalts⟩ | ⟨f, m₂, hfails, -⟩⟩ := h.last_step hd hs
    · cases hrun.symm.trans hhalts
    · cases hrun.symm.trans hfails

end Course

/-- No step of a compiled program goes wrong before its stack meets its heap.  It is taken at an
address that the listing of the program shows, and it fails only at a division by zero, or where the
dispatch pointer is read in the code of a method call and the receiver is null. -/
theorem compile_safe {source : Text} {c : Compilation} (hcompile : (compile source).value = .ok c)
    (hsource : source.length < Word.limit) (hcode : Line.extent c.code.lines < Word.limit) :
    ∃ x, Executable.assemble c.assembly = .ok x ∧
      x.listing = (x.starts.flatMap fun a => Instruction.row a (x.instructionAt a)) ∧
      ∀ (size : Int) m, Machine.new? size = some m →
        ∀ n m', m.reset.run x.code n = .running m' → m.Apart x.code n →
          (∃ a ∈ x.starts, m'.ip = Int64.ofNat a) ∧
          ∀ f m'', m'.step x.code = .failed f m'' →
            f = .divisionByZero ∨ f = .invalidAddress ∧ AtNullReceiver c.code.lines m' := by
  obtain ⟨p, x, -, hassemble, hlines, hcourse⟩ := course_of_compile hcompile hsource hcode
  refine ⟨x, hassemble, x.listing_eq, fun size m hm n m' hrun hapart => ?_⟩
  obtain ⟨hpos, hlt, -⟩ := Machine.size_of_new? hm
  obtain ⟨k, m₁, h⟩ := hcourse m hlt (m.memory.size + 1)
  rw [hlines]
  exact h.safe (Nat.lt_succ_self _) hpos hrun hapart

/-- Whether a step was stopped by an address outside of the memory. -/
def Machine.Outcome.isInvalidAddress : Machine.Outcome → Bool
  | .failed .invalidAddress _ => true
  | _ => false

/-- Whether a run goes on and its next step is stopped by an address outside of the memory. -/
def Machine.Outcome.meetsInvalidAddress (code : Array Word) : Machine.Outcome → Bool
  | .running m => (m.step code).isInvalidAddress
  | _ => false

/-- A program that calls a method of null. -/
def nullSource : Text := "let class A () { fun m:int () 1; } var x:A = null; in x.m();"

/-- A run stops at the call of the method, where the receiver is null. -/
theorem compile_safe_null : ∃ c x m', (compile nullSource).value = .ok c ∧
    Executable.assemble c.assembly = .ok x ∧
    (Machine.new 100).reset.run x.code 25 = .running m' ∧ AtNullReceiver c.code.lines m' := by
  obtain ⟨c, hc, hfits⟩ := exists_ok_of_any (x := (compile nullSource).value)
    (q := fun c => Line.extent c.code.lines < Word.limit &&
      (Executable.assemble c.assembly).toOption.any fun x =>
        (Machine.new 100).Apart x.code 25 &&
          ((Machine.new 100).reset.run x.code 25).meetsInvalidAddress x.code) (by decide +kernel)
  simp only [Bool.and_eq_true, decide_eq_true_eq] at hfits
  obtain ⟨hextent, hrun⟩ := hfits
  obtain ⟨x, hx, -, hsafe⟩ := compile_safe hc (by decide +kernel) hextent
  obtain ⟨x', hx', hrun⟩ := exists_ok_of_any hrun
  obtain rfl : x' = x := Except.ok.inj (hx'.symm.trans hx)
  simp only [Bool.and_eq_true, decide_eq_true_eq] at hrun
  obtain ⟨hapart, hfails⟩ := hrun
  unfold Machine.Outcome.meetsInvalidAddress at hfails
  split at hfails
  · next m' hm' =>
    unfold Machine.Outcome.isInvalidAddress at hfails
    split at hfails
    · next m'' hstep =>
      refine ⟨c, x', m', hc, hx, hm', ?_⟩
      exact ((hsafe 100 _ rfl 25 m' hm' hapart).2 _ _ hstep).elim nofun And.right
    · cases hfails
  · cases hfails

/-- Every run of a compiled program halts, ends in a runtime error or has its stack meet its heap.
So no run goes on for ever with stack and heap apart. -/
theorem compile_stops {source : Text} {c : Compilation} (hcompile : (compile source).value = .ok c)
    (hsource : source.length < Word.limit) (hcode : Line.extent c.code.lines < Word.limit) :
    ∃ x, Executable.assemble c.assembly = .ok x ∧
      ∀ (size : Int) m, Machine.new? size = some m →
        ((∃ m', x.Reaches m ⟨m', none⟩) ∨ (∃ m' e, x.Reaches m ⟨m', some e⟩) ∨
          ∃ n m', m.reset.run x.code n = .running m' ∧ m'.sp = m'.hp) ∧
        ¬ ∀ n, ∃ m', m.reset.run x.code n = .running m' ∧ m'.hp < m'.sp := by
  obtain ⟨p, x, -, hassemble, -, hcourse⟩ := course_of_compile hcompile hsource hcode
  refine ⟨x, hassemble, fun size m hm => ?_⟩
  obtain ⟨-, hlt, -⟩ := Machine.size_of_new? hm
  obtain ⟨k, m₁, h⟩ := hcourse m hlt (m.memory.size + 1)
  obtain ⟨n, hn⟩ := h.stops (Nat.lt_succ_self _)
  refine ⟨?_, fun hever => ?_⟩
  · cases hrun : m.reset.run x.code n with
    | running m' => exact .inr (.inr ⟨n, m', hrun, hn m' hrun⟩)
    | halted m' => exact .inl ⟨m', Executable.reaches_iff.mpr ⟨n, by rw [hrun]; rfl⟩⟩
    | failed f m' =>
      exact .inr (.inl ⟨m', x.runtimeError m' f,
        Executable.reaches_iff.mpr ⟨n, by rw [hrun]; rfl⟩⟩)
  · obtain ⟨m', hrun, hapart⟩ := hever n
    have := hn m' hrun
    omega

/-- A program whose only function calls itself for ever. -/
def endlessSource : Text := "let fun f:int (i:int) f(i + 1); in f(0);"

/-- The run of a program that calls itself for ever stops, or its stack meets its heap. -/
theorem compile_stops_endless : ∃ c x, (compile endlessSource).value = .ok c ∧
    Executable.assemble c.assembly = .ok x ∧
    ¬ ∀ n, ∃ m', (Machine.new 1000).reset.run x.code n = .running m' ∧ m'.hp < m'.sp := by
  obtain ⟨c, hc, hextent⟩ := exists_ok_of_any (x := (compile endlessSource).value)
    (q := fun c => Line.extent c.code.lines < Word.limit) (by decide +kernel)
  obtain ⟨x, hx, hstops⟩ := compile_stops hc (by decide +kernel) (of_decide_eq_true hextent)
  exact ⟨c, x, hc, hx, (hstops 1000 _ rfl).2⟩

end Foolscap
