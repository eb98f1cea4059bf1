import Foolscap.Proofs.Program.Course

/-!
# Correctness of the compiler

A compiled program does what the evaluation of its tree does, in every memory that is large enough.

## Design Notes

Memory sizes are bounded, so that a size that is enough has to be named: that there is one would
hold of any program.  The bound is a coarse one.  A call pushes at most as many words as there are
lines of code, and the heap ends where the store says.
-/

namespace Foolscap

/-- A memory size that is enough for an evaluation with calls nested so deep that ends with a
store. -/
def Compilation.memoryFor (c : Compilation) (depth : Nat) (st : Store) : Nat :=
  (depth + 1) * c.code.lines.length + st.next + 1

namespace Course

variable {p : Program} {x : Executable} {m m' : Machine} {d n : Nat}

/-- A run in a memory that is large enough comes to its conclusion. -/
theorem concludes (h : Course p x m d n m') {r : EStateM.Result Abort Store Word}
    (hr : p.evaluate d = r) (hsize : (d + 1) * p.lines.length + (Abort.storeOf r).next <
      m.memory.size) : m'.Concludes p.lines x.code m.memory.size d r := by
  subst hr
  rcases h.ends with ⟨-, hle⟩ | ⟨hconcludes, -⟩
  · omega
  · exact hconcludes

theorem yields (h : Course p x m d n m') {v : Word} {st : Store}
    (hconcludes : m'.Concludes p.lines x.code m.memory.size d (.ok v st)) :
    x.Yields m v st.printed := by
  obtain ⟨m₁, hstep, hprinted, htop, -⟩ := hconcludes
  exact ⟨m₁, Executable.reaches_of_step h.run (by rw [hstep]; rfl), htop, hprinted⟩

theorem faults (h : Course p x m d n m') {f : Fault} {o : List Word}
    (hstep : ∃ m₁, m'.step x.code = .failed f m₁ ∧ m₁.printed = o) : x.Faults m f o := by
  obtain ⟨m₁, hstep, hprinted⟩ := hstep
  exact ⟨m₁, x.runtimeError m₁ f, Executable.reaches_of_step h.run (by rw [hstep]; rfl), rfl,
    hprinted⟩

/-- A run whose evaluation does not finish with as many nested calls as there are cells has its
stack meet its heap. -/
theorem spent_of_unfinished (h : Course p x m d n m') {st : Store}
    (hr : p.evaluate d = .error .unfinished st) (hd : m.memory.size < d) : Spent x.code m' := by
  rcases h.ends with ⟨hspent, -⟩ | ⟨hconcludes, -⟩
  · exact hspent
  · rw [hr] at hconcludes
    have hle : d + m'.sp ≤ m.memory.size := hconcludes
    omega

end Course

/-- A compiled program can be assembled, and runs as its tree is evaluated.  If the evaluation
yields a value, the run halts with the value on top of the stack, and has printed the same numbers;
if it ends at a division by zero or at a call of a method of null, the run ends there with an
error.  If the evaluation does not end however deep calls are nested, in every memory the stack of
the run meets its heap.  It is never stuck, unless it takes more memory than can be addressed. -/
theorem compile_correct {source : Text} {c : Compilation}
    (hcompile : (compile source).value = .ok c) (hsource : source.length < Word.limit)
    (hcode : Line.extent c.code.lines < Word.limit) :
    ∃ p x, Program.parse source = .ok p ∧ Executable.assemble c.assembly = .ok x ∧
      (∀ depth v st, p.evaluate depth = .ok v st →
        ∀ size : Int, c.memoryFor depth st ≤ size → ∀ m, Machine.new? size = some m →
          x.Yields m v st.printed) ∧
      (∀ depth st, p.evaluate depth = .error .divisionByZero st →
        ∀ size : Int, c.memoryFor depth st ≤ size → ∀ m, Machine.new? size = some m →
          x.Faults m .divisionByZero st.printed) ∧
      (∀ depth st, p.evaluate depth = .error .nullReceiver st →
        ∀ size : Int, c.memoryFor depth st ≤ size → ∀ m, Machine.new? size = some m →
          x.Faults m .invalidAddress st.printed) ∧
      ((∀ depth, ∃ st, p.evaluate depth = .error .unfinished st) →
        ∀ (size : Int) m, Machine.new? size = some m →
          ∃ n m', m.reset.run x.code n = .running m' ∧ m'.sp = m'.hp) ∧
      ∀ depth st, p.evaluate depth = .error .stuck st → Word.limit ≤ c.memoryFor depth st := by
  obtain ⟨p, x, hparse, hassemble, hlines, hcourse⟩ := course_of_compile hcompile hsource hcode
  have hconcludes : ∀ {depth : Nat} {r : EStateM.Result Abort Store Word},
      p.evaluate depth = r → ∀ {size : Int}, c.memoryFor depth (Abort.storeOf r) ≤ size →
      ∀ {m : Machine}, Machine.new? size = some m →
        ∃ n m', Course p x m depth n m' ∧
          m'.Concludes p.lines x.code m.memory.size depth r := by
    intro depth r hr size hsize m hm
    obtain ⟨-, hlt, hsize_eq⟩ := Machine.size_of_new? hm
    rw [Compilation.memoryFor, hlines] at hsize
    have hsize_eq := hsize_eq (by omega)
    obtain ⟨n, m', h⟩ := hcourse m hlt depth
    exact ⟨n, m', h, h.concludes hr (by omega)⟩
  refine ⟨p, x, hparse, hassemble, fun depth v st hr size hsize m hm => ?_,
    fun depth st hr size hsize m hm => ?_, fun depth st hr size hsize m hm => ?_,
    fun hunfinished size m hm => ?_, fun depth st hr => ?_⟩
  · obtain ⟨n, m', h, hend⟩ := hconcludes hr hsize hm
    exact h.yields hend
  · obtain ⟨n, m', h, hend⟩ := hconcludes hr hsize hm
    exact h.faults hend
  · obtain ⟨n, m', h, hend⟩ := hconcludes hr hsize hm
    exact h.faults hend.2
  · -- More nested calls than there are cells: only the end of the memory can be reached.
    obtain ⟨-, hlt, -⟩ := Machine.size_of_new? hm
    obtain ⟨st, hr⟩ := hunfinished (m.memory.size + 1)
    obtain ⟨n, m', h⟩ := hcourse m hlt (m.memory.size + 1)
    exact ⟨n, m', h.run, (h.spent_of_unfinished hr (Nat.lt_succ_self _)).1⟩
  · by_contra hlt
    rw [Compilation.memoryFor, hlines] at hlt
    have hsize : (Array.replicate ((depth + 1) * p.lines.length + st.next + 1) (0 : Word)).size =
        (depth + 1) * p.lines.length + st.next + 1 := Array.size_replicate
    obtain ⟨n, m', h⟩ := hcourse { memory := Array.replicate _ 0 } (by rw [hsize]; omega) depth
    exact h.concludes hr (by rw [hsize]; exact Nat.lt_succ_self _)

/-- Whether an evaluation ends in a value, a printed text and a first free cell. -/
def Program.evaluatesTo (p : Program) (depth : Nat) (v : Word) (printed : List Word)
    (next : Nat) : Bool :=
  match p.evaluate depth with
  | .ok v' st => v' == v && st.printed == printed && st.next == next
  | .error _ _ => false

/-- A program with an inherited field, an overridden method and a recursive function. -/
def factorialSource : Text :=
  "let class A (n:int) { fun m:int (k:int) n + k; } " ++
  "class B extends A () { fun m:int (k:int) n * k; } " ++
  "fun fact:int (i:int) if i <= 1 then { 1 } else { i * fact(i - 1) }; " ++
  "var x:A = new B(7); in print(x.m(fact(3)));"

/-- The method of the class of the object is called, with the factorial of 3. -/
theorem compile_correct_factorial :
    ∃ c x, (compile factorialSource).value = .ok c ∧ Executable.assemble c.assembly = .ok x ∧
      ∀ m, Machine.new? 2000 = some m → x.Yields m 42 [42] := by
  obtain ⟨c, hc, hfits⟩ := exists_ok_of_any (x := (compile factorialSource).value)
    (q := fun c => Line.extent c.code.lines < Word.limit && 5 * c.code.lines.length ≤ 1900)
    (by decide +kernel)
  obtain ⟨p, hp, heval⟩ := exists_ok_of_any (x := Program.parse factorialSource)
    (q := fun p => p.evaluatesTo 4 42 [42] 5) (by decide +kernel)
  simp only [Bool.and_eq_true, decide_eq_true_eq] at hfits
  obtain ⟨p', x, hp', hx, hvalue, -⟩ := compile_correct hc (by decide +kernel) hfits.1
  obtain rfl : p' = p := Except.ok.inj (hp'.symm.trans hp)
  refine ⟨c, x, hc, hx, fun m hm => ?_⟩
  unfold Program.evaluatesTo at heval
  split at heval
  · next v st hr =>
    simp only [Bool.and_eq_true, beq_iff_eq] at heval
    obtain ⟨⟨rfl, hprinted⟩, hnext⟩ := heval
    rw [← hprinted]
    refine hvalue 4 _ st hr 2000 ?_ m hm
    rw [Compilation.memoryFor, hnext]
    omega
  · cases heval

end Foolscap
