import Foolscap.Proofs.Program.Safety

/-!
# Memory sizes

What a compiled program that halts has printed, its value and the end of its heap do not depend on
the size of the memory, as long as no cell is overwritten between its being filled and its being
reserved.

A cell of the heap is filled first and reserved afterwards, and on the way the new heap pointer is
computed on the stack.  With one free cell left, the number that is added to the heap pointer goes
into the cell itself.
-/

namespace Foolscap

namespace Machine

/-- Unless the heap pointer is about to be moved by a computation that took the last free cell. -/
def Outcome.Intact (code : Array Word) : Outcome → Prop
  | .running m => fetch? code m.ip = some (Int64.ofNat Opcode.shp.code) → m.sp ≠ m.hp + 1
  | .halted _ | .failed _ _ => True

instance (code : Array Word) : DecidablePred (Outcome.Intact code)
  | .running m => inferInstanceAs
      (Decidable (fetch? code m.ip = some (Int64.ofNat Opcode.shp.code) → m.sp ≠ m.hp + 1))
  | .halted _ | .failed _ _ => inferInstanceAs (Decidable True)

/-- No cell is overwritten before it is reserved: whenever the heap pointer is about to be moved,
there is a free cell between it and its new value on top of the stack. -/
def ReservesIntact (code : Array Word) (m : Machine) : Prop :=
  ∀ n, (m.reset.run code n).Intact code

/-- No cell is overwritten before it is reserved in so many steps. -/
def IntactFor (code : Array Word) (m : Machine) (n : Nat) : Prop :=
  ∀ i < n, (m.reset.run code i).Intact code

instance (code : Array Word) (m : Machine) (n : Nat) : Decidable (m.IntactFor code n) :=
  inferInstanceAs (Decidable (∀ i < n, (m.reset.run code i).Intact code))

/-- A run that ends needs to be looked at up to its end only. -/
theorem reservesIntact_of_run {code : Array Word} {m : Machine} {n : Nat} {s : Outcome}
    (hn : m.reset.run code n = s) (hs : ∀ m', s ≠ .running m')
    (h : m.IntactFor code n) : m.ReservesIntact code := by
  intro i
  rcases Nat.lt_or_ge i n with hlt | hge
  · exact h i hlt
  · rw [run_of_le hn hs hge]
    cases s with
    | running m' => exact absurd rfl (hs m')
    | halted m' => trivial
    | failed f m' => trivial

end Machine

/-- A run that halts has the value, the numbers printed and the end of the heap that the evaluation
has. -/
theorem Course.halted {p : Program} {x : Executable} {m m' m₁ : Machine} {d n k : Nat}
    (h : Course p x m d n m') (hd : m.memory.size < d) (hintact : m.ReservesIntact x.code)
    (hhalted : m.reset.run x.code k = .halted m₁) :
    ∃ v st, p.evaluate d = .ok v st ∧ m₁.printed = st.printed ∧ m₁.top? = some v ∧
      m₁.hp = st.next := by
  have hlast := Machine.run_succ_of_running h.run
  have hfails : ∀ f m₂, m'.step x.code ≠ .failed f m₂ := by
    intro f m₂ hstep
    cases Machine.run_eq_run hhalted nofun (hlast.trans hstep) nofun
  have hspent : ¬ Spent x.code m' := by
    rintro ⟨-, ⟨m₂, hstep⟩ | ⟨m₂, hstep, hsp, hfetch⟩⟩
    · exact hfails _ _ hstep
    · have hspoilt := hintact (n + 1)
      rw [hlast, hstep] at hspoilt
      exact hspoilt hfetch hsp
  obtain ⟨hconcludes, -⟩ := h.ends.resolve_left fun hs => hspent hs.1
  cases hr : p.evaluate d with
  | ok v st =>
    rw [hr] at hconcludes
    obtain ⟨m₂, hstep, hprinted, htop, hhp⟩ := hconcludes
    cases Machine.run_eq_run hhalted nofun (hlast.trans hstep) nofun
    exact ⟨v, st, rfl, hprinted, htop, hhp⟩
  | error e st =>
    rw [hr] at hconcludes
    cases e with
    | divisionByZero =>
      obtain ⟨m₂, hstep, -⟩ := hconcludes
      exact absurd hstep (hfails _ _)
    | nullReceiver =>
      obtain ⟨-, m₂, hstep, -⟩ := hconcludes
      exact absurd hstep (hfails _ _)
    | unfinished => exact absurd (h.spent_of_unfinished hr hd) hspent
    | stuck => exact hconcludes.elim

/-- Two runs of a compiled program that halt in memories of any two sizes, and overwrite no cell
before it is reserved, have printed the same numbers and end with the same value on top of the stack
and the same heap pointer. -/
theorem halt_independent_of_size {source : Text} {c : Compilation}
    (hcompile : (compile source).value = .ok c) (hsource : source.length < Word.limit)
    (hcode : Line.extent c.code.lines < Word.limit) :
    ∃ x, Executable.assemble c.assembly = .ok x ∧
      ∀ (size₁ size₂ : Int) m₁ m₂, Machine.new? size₁ = some m₁ → Machine.new? size₂ = some m₂ →
        m₁.ReservesIntact x.code → m₂.ReservesIntact x.code →
        ∀ m₁' m₂', x.Reaches m₁ ⟨m₁', none⟩ → x.Reaches m₂ ⟨m₂', none⟩ →
          m₁'.output = m₂'.output ∧ m₁'.top? = m₂'.top? ∧ m₁'.hp = m₂'.hp := by
  obtain ⟨p, x, -, hassemble, -, hcourse⟩ := course_of_compile hcompile hsource hcode
  refine ⟨x, hassemble, fun size₁ size₂ m₁ m₂ hm₁ hm₂ hintact₁ hintact₂ m₁' m₂' h₁ h₂ => ?_⟩
  -- One evaluation with more nested calls than either memory has cells tells of both runs.
  obtain ⟨d, hd₁, hd₂⟩ : ∃ d, m₁.memory.size < d ∧ m₂.memory.size < d :=
    ⟨m₁.memory.size + m₂.memory.size + 1, by omega, by omega⟩
  obtain ⟨-, hlt₁, -⟩ := Machine.size_of_new? hm₁
  obtain ⟨-, hlt₂, -⟩ := Machine.size_of_new? hm₂
  obtain ⟨n₁, hrun₁⟩ := h₁.halted
  obtain ⟨n₂, hrun₂⟩ := h₂.halted
  obtain ⟨k₁, e₁, hcourse₁⟩ := hcourse m₁ hlt₁ d
  obtain ⟨k₂, e₂, hcourse₂⟩ := hcourse m₂ hlt₂ d
  obtain ⟨v, st, hr, hprinted₁, htop₁, hhp₁⟩ := hcourse₁.halted hd₁ hintact₁ hrun₁
  obtain ⟨v', st', hr', hprinted₂, htop₂, hhp₂⟩ := hcourse₂.halted hd₂ hintact₂ hrun₂
  cases hr.symm.trans hr'
  refine ⟨?_, htop₁.trans htop₂.symm, hhp₁.trans hhp₂.symm⟩
  rw [Machine.output, Machine.output, hprinted₁, hprinted₂]

namespace Executable

/-- The machine that a run halts with after so many steps in a memory of a size. -/
def haltsAfter? (x : Executable) (size : Int) (n : Nat) : Option Machine :=
  match (Machine.new size).reset.run x.code n with
  | .halted m => some m
  | _ => none

variable {x : Executable} {size : Int} {n : Nat} {m : Machine}

theorem run_of_haltsAfter? (h : x.haltsAfter? size n = some m) :
    (Machine.new size).reset.run x.code n = .halted m := by
  rw [haltsAfter?] at h
  split at h
  · next hrun => rw [hrun, Option.some.inj h]
  · cases h

theorem reaches_of_haltsAfter? (h : x.haltsAfter? size n = some m) :
    x.Reaches (Machine.new size) ⟨m, none⟩ :=
  reaches_iff.mpr ⟨n, by rw [run_of_haltsAfter? h]; rfl⟩

end Executable

/-- A program that calls an overridden method of an object made in a function. -/
def dispatchSource : Text :=
  "let class A () { fun m:int () 1; } class B extends A () { fun m:int () 2; } " ++
  "fun f:A () new B(); var x:A = f(); in print(x.m());"

/-- The runs in memories of 14 and of 100 cells agree. -/
theorem halt_independent_of_size_dispatch : ∃ c x m₁ m₂,
    (compile dispatchSource).value = .ok c ∧ Executable.assemble c.assembly = .ok x ∧
      x.Reaches (Machine.new 14) ⟨m₁, none⟩ ∧ x.Reaches (Machine.new 100) ⟨m₂, none⟩ ∧
      m₁.output = m₂.output ∧ m₁.top? = m₂.top? ∧ m₁.hp = m₂.hp := by
  have hsource : dispatchSource.length < Word.limit := by decide +kernel
  obtain ⟨c, hc, hextent⟩ := exists_ok_of_any (x := (compile dispatchSource).value)
    (q := fun c => Line.extent c.code.lines < Word.limit) (by decide +kernel)
  obtain ⟨x, hx, hagree⟩ := halt_independent_of_size hc hsource (of_decide_eq_true hextent)
  have hhalts : ∀ size : Int, (x.haltsAfter? size 80).isSome →
      (Machine.new size).IntactFor x.code 80 → ∃ m, x.Reaches (Machine.new size) ⟨m, none⟩ ∧
        (Machine.new size).ReservesIntact x.code := by
    intro size hrun hintact
    obtain ⟨m, hm⟩ := Option.isSome_iff_exists.mp hrun
    exact ⟨m, x.reaches_of_haltsAfter? hm,
      Machine.reservesIntact_of_run (x.run_of_haltsAfter? hm) nofun hintact⟩
  -- Each run is computed on its own, for the kernel keeps all that one computation comes across.
  obtain ⟨m₁, hm₁, hintact₁⟩ := hhalts 14
    (assembled_of_any hc hsource hx
      (q := fun _ code => (Executable.haltsAfter? { code } 14 80).isSome) (by decide +kernel))
    (of_decide_eq_true (assembled_of_any hc hsource hx
      (q := fun _ code => (Machine.new 14).IntactFor code 80) (by decide +kernel)))
  obtain ⟨m₂, hm₂, hintact₂⟩ := hhalts 100
    (assembled_of_any hc hsource hx
      (q := fun _ code => (Executable.haltsAfter? { code } 100 80).isSome) (by decide +kernel))
    (of_decide_eq_true (assembled_of_any hc hsource hx
      (q := fun _ code => (Machine.new 100).IntactFor code 80) (by decide +kernel)))
  exact ⟨c, x, m₁, m₂, hc, hx, hm₁, hm₂,
    hagree 14 100 _ _ rfl rfl hintact₁ hintact₂ m₁ m₂ hm₁ hm₂⟩

/-- In a memory of 13 cells the address of a dispatch table is overwritten before it is reserved,
and the method of the wrong class is called. -/
theorem halt_depends_on_size : ∃ c x m₁ m₂,
    (compile dispatchSource).value = .ok c ∧ Executable.assemble c.assembly = .ok x ∧
      x.Reaches (Machine.new 13) ⟨m₁, none⟩ ∧ x.Reaches (Machine.new 14) ⟨m₂, none⟩ ∧
      m₁.output = ("1\n" : Text) ∧ m₂.output = ("2\n" : Text) ∧ m₁.top? = some 1 ∧
      m₂.top? = some 2 := by
  have hsource : dispatchSource.length < Word.limit := by decide +kernel
  obtain ⟨c, hc, -⟩ := exists_ok_of_any (x := (compile dispatchSource).value) (q := fun _ => true)
    (by decide +kernel)
  obtain ⟨-, x, -, -, -, hx, -⟩ := linked_of_compile hc hsource
  have hruns := assembled_of_any hc hsource hx
    (q := fun _ code =>
      ((Executable.haltsAfter? { code } 13 80).any fun m =>
        m.output = ("1\n" : Text) && m.top? = some 1) &&
      (Executable.haltsAfter? { code } 14 80).any fun m =>
        m.output = ("2\n" : Text) && m.top? = some 2)
    (by decide +kernel)
  simp only [Bool.and_eq_true, Option.any_eq_true_iff_get, decide_eq_true_eq] at hruns
  obtain ⟨⟨h₁, ho₁, ht₁⟩, h₂, ho₂, ht₂⟩ := hruns
  exact ⟨c, x, _, _, hc, hx, x.reaches_of_haltsAfter? (Option.some_get h₁).symm,
    x.reaches_of_haltsAfter? (Option.some_get h₂).symm, ho₁, ho₂, ht₁, ht₂⟩

end Foolscap
