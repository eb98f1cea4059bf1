import Foolscap.Proofs.Assembly.Fragments
import Foolscap.Proofs.Machine.Discipline
import Foolscap.Proofs.Machine.InRange
import Foolscap.Proofs.Program.Safety

/-!
# The discipline of compiled programs

Until its stack first meets its heap, a compiled program that enters the code of one of its
expressions leaves it with one more word on the stack, with the same frame pointer, and with all the
rest of the stack and of the heap as it was.
-/

namespace Foolscap

namespace Machine

theorem current_of_new? {size : Int} {m : Machine} (h : new? size = some m) : m.current = 0 := by
  rw [new?] at h
  split at h
  · cases h
  · cases h
    rfl

/-- All machines that a run comes to are bounded. -/
theorem bounded_of_running {x : Executable} {m m₁ : Machine} {i : Nat}
    (hcode : x.code.size < Word.limit) (hm : m.memory.size < Word.limit) (hcurrent : m.current = 0)
    (hrun : m.reset.run x.code i = .running m₁) : Bounded m.memory.size m₁ := by
  have hreset : Bounded m.memory.size m.reset := .reset hm (by rw [hcurrent]; decide)
  have hbounded := (Bare.steps_bare hcode hreset false i []).2
  rw [hrun] at hbounded
  exact hbounded

end Machine

/-- What an expression keeps, told by the memory and the pointers before it. -/
theorem Kept.pointers {P : Setup} {k : List Line} {m m' : Machine} (hm : m.Bounded P.size)
    (h : Kept P k (m.memory.toList.drop m.sp) (m.memory.toList.take m.hp) m.fp.toBitVec.toNat m') :
    m'.fp = m.fp ∧ m'.sp + 1 = m.sp ∧ (∀ a, m.sp ≤ a → m'.memory[a]? = m.memory[a]?) ∧
      m.hp ≤ m'.hp ∧ ∀ a < m.hp, m'.memory[a]? = m.memory[a]? := by
  obtain ⟨w, H', ra, tm, o, hH, hm'⟩ := h
  have hsp := hm'.sp_eq
  have hhp := hm'.hp_eq
  have hlength := hH.length_le
  have hp_le := hm.hp_le
  have sp_le := hm.sp_le
  have size_eq := hm.size_eq
  simp only [List.length_cons, List.length_drop, List.length_take, Array.length_toList]
    at hsp hhp hlength
  refine ⟨hm'.fp_eq.trans (Word.eq_ofNat m.fp).symm, by omega, fun a ha => ?_, by omega,
    fun a ha => ?_⟩
  · exact hm'.memory_eq_of_suffix hm.size_eq (List.suffix_cons _ _) ha
  · exact hm'.memory_eq_of_prefix hH ha (by omega)

/-- The calls of a run go to routines that take what is passed, as long as stack and heap do not
meet. -/
theorem Course.aiming {p : Program} {x : Executable} {m m' m₁ : Machine} {d n k : Nat} {P : Setup}
    (h : Course p x m d n m') (hd : m.memory.size < d) (hpos : 0 < m.memory.size)
    (hlines : P.lines = p.lines) (hcode : P.code = x.code)
    (hrun : m.reset.run x.code k = .running m₁) (hapart : m.Apart x.code k) :
    m.reset.Aiming P k := by
  intro i hi m₂ hm₂
  rw [hcode] at hm₂ ⊢
  rw [hlines]
  exact h.aims i (h.lt_of_running hd hpos hrun hapart hi) m₂ hm₂

/-- There is code for all that is in a compiled program. -/
theorem found_of_compile {source : Text} {c : Compilation} (h : (compile source).value = .ok c) :
    Found c.code.lines c.program.nodes := by
  obtain ⟨p, -, hgenerate⟩ := analysis_of_compile h
  obtain ⟨q, -, -, -, hgap, rfl⟩ := Analysis.eq_of_generate hgenerate
  exact Program.found hgap {}

/-- Code of expressions keeps the discipline of the stack and of the heap, as long as these two
have not met.  There is such a fragment for every expression of a compiled program.  When a run
enters a fragment and then, in the same activation, comes to the line after it, then the frame
pointer is what it was, there is one more word on the stack, what was on the stack is still there,
and so is what was in the heap, which may have grown. -/
theorem compile_disciplined {source : Text} {c : Compilation}
    (hcompile : (compile source).value = .ok c) (hsource : source.length < Word.limit)
    (hcode : Line.extent c.code.lines < Word.limit) :
    Found c.code.lines c.program.nodes ∧
    ∃ x, Executable.assemble c.assembly = .ok x ∧
      ∀ (size : Int) m, Machine.new? size = some m →
        ∀ e n k, Fragment c.code.lines e n k →
          ∀ i j m₁ m₂, m.Apart x.code (i + j) → m.reset.run x.code i = .running m₁ →
            m₁.ip = Int64.ofNat (Line.place c.code.lines ((e.code n).1 ++ k)) →
            Machine.Until x.code (fun m => m.ip = Int64.ofNat (Line.place c.code.lines k)) j m₁ m₂ →
            m₂.fp = m₁.fp ∧ m₂.sp + 1 = m₁.sp ∧
              (∀ a, m₁.sp ≤ a → m₂.memory[a]? = m₁.memory[a]?) ∧
              m₁.hp ≤ m₂.hp ∧ ∀ a < m₁.hp, m₂.memory[a]? = m₁.memory[a]? := by
  refine ⟨found_of_compile hcompile, ?_⟩
  obtain ⟨p, x, -, haccepted, hweight, hx, hlines, hcells⟩ := linked_of_compile hcompile hsource
  rw [hlines] at hcode ⊢
  refine ⟨x, hx, fun size m hm e n k he i j m₁ m₂ hapart hrun hip huntil => ?_⟩
  obtain ⟨hpos, hlt, -⟩ := Machine.size_of_new? hm
  let P : Setup := ⟨p.lines, x.code, m.memory.size, 0, 0, hcells,
    (haccepted.linkable hweight).nodup, hcode, hlt⟩
  have hsize : x.code.size < Word.limit := by
    rw [← Array.length_toList, hcells, Line.length_linked]
    exact hcode
  have hbounded : m₁.Bounded P.size :=
    Machine.bounded_of_running hsize hlt (Machine.current_of_new? hm) hrun
  have hentry := Holds.of_machine (P := P) he.suffix hip hbounded.size_eq hbounded.hp_le
    hbounded.sp_le
  -- The run goes on to the line after the fragment, so all of it belongs to a course.
  have hend : m.reset.run x.code (i + j) = .running m₂ := by
    rw [Machine.run_add, hrun]
    exact huntil.run
  obtain ⟨_, _, hcourse⟩ := haccepted.course hweight hcode hcells hlt (m.memory.size + 1)
  have haiming : m.reset.Aiming P (i + j) :=
    hcourse.aiming (Nat.lt_succ_self _) hpos rfl rfl hend hapart
  exact (Expr.kept_of_until he.complete hentry (haiming.of_run hrun) huntil).pointers hbounded

/-- A program in which a method creates an object and calls another method for it. -/
def nextSource : Text :=
  "let class A (v:int) { fun get:int () v; fun next:A (i:int) new A(i + get()); } " ++
  "var x:A = new A(3); in x.next(4);"

/-- The method call leaves one word on the stack, and the heap has grown. -/
theorem compile_disciplined_next : ∃ c x k j m₁ m₂, (compile nextSource).value = .ok c ∧
    Executable.assemble c.assembly = .ok x ∧ Fragment c.code.lines c.program.body 0 k ∧
    (Machine.new 60).reset.run x.code 42 = .running m₁ ∧
    Machine.Until x.code (fun m => m.ip = Int64.ofNat (Line.place c.code.lines k)) j m₁ m₂ ∧
    m₁.hp < m₂.hp ∧ m₂.fp = m₁.fp ∧ m₂.sp + 1 = m₁.sp ∧
    ∀ a, a < m₁.hp ∨ m₁.sp ≤ a → m₂.memory[a]? = m₁.memory[a]? := by
  have hsource : nextSource.length < Word.limit := by decide +kernel
  obtain ⟨c, hc, hfits⟩ := exists_ok_of_any (x := (compile nextSource).value)
    (q := fun c => Line.extent c.code.lines < Word.limit && c.program.body.gap? = none &&
      c.code.lines.drop 42 = (c.program.body.code 0).1 ++ c.code.lines.drop 56)
    (by decide +kernel)
  simp only [Bool.and_eq_true, decide_eq_true_eq] at hfits
  obtain ⟨⟨hextent, hgap⟩, hdrop⟩ := hfits
  obtain ⟨-, x, hx, hkeeps⟩ := compile_disciplined hc hsource hextent
  have hrun := assembled_of_any hc hsource hx
    (q := fun c code =>
      let lines := c.code.lines
      let k := lines.drop 56
      ((Machine.new 60).reset.run code 42).running?.any fun m₁ =>
        m₁.ip = Int64.ofNat (Line.place lines ((c.program.body.code 0).1 ++ k)) &&
          (Machine.until? code 80 (fun m => m.ip = Int64.ofNat (Line.place lines k)) m₁).any
            fun r => (Machine.new 60).Apart code (42 + r.1) && m₁.hp < r.2.hp)
    (by decide +kernel)
  have hfragment : Fragment c.code.lines c.program.body 0 (c.code.lines.drop 56) :=
    ⟨hgap, hdrop ▸ List.drop_suffix 42 _⟩
  obtain ⟨m₁, hrunning, hreached⟩ := (Option.any_eq_true _ _).mp hrun
  have hm₁ := Machine.Outcome.running?_eq_some_iff.mp hrunning
  rw [Bool.and_eq_true, decide_eq_true_eq, Option.any_eq_true] at hreached
  obtain ⟨hip, ⟨j, m₂⟩, huntil, happly⟩ := hreached
  rw [Bool.and_eq_true, decide_eq_true_eq, decide_eq_true_eq] at happly
  obtain ⟨hapart, hgrown⟩ := happly
  have huntil := Machine.until_of_until? huntil
  simp only [decide_eq_true_eq] at huntil
  obtain ⟨hfp, hsp, hstack, -, hheap⟩ :=
    hkeeps 60 _ rfl _ _ _ hfragment 42 j m₁ m₂ hapart hm₁ hip huntil
  exact ⟨c, x, _, j, m₁, m₂, hc, hx, hfragment, hm₁, huntil, hgrown, hfp, hsp,
    fun a ha => ha.elim (hheap a) (hstack a)⟩

end Foolscap
