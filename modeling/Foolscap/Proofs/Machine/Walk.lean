import Foolscap.Proofs.Machine.Heap

/-!
# Walks through one activation

What is known of a machine after steps of one activation, whatever the values are that it works on.
Here nothing is said about whether a run goes on; it is followed as far as it does.

## Design Notes

The number of steps is bounded, so that what is known of shorter walks can be used for the routines
that are called on the way.
-/

namespace Foolscap

open List

/-- Nothing holds at a line before some others, unless a routine ends there. -/
def Clear (P : Setup) (T : Machine → Prop) (k : List Line) : Prop :=
  ∀ m x k', k <:+ k' → x :: k' <:+ P.lines → x.width ≠ 0 →
    m.ip = Int64.ofNat (Line.place P.lines (x :: k')) → m.turn P.code ≠ .returns → ¬ T m

/-- Calls go to routines that take what is passed, in every machine that a run of so many steps
comes to before its last one. -/
def Machine.Aiming (P : Setup) (m : Machine) (n : Nat) : Prop :=
  ∀ i < n, ∀ m₁, m.run P.code i = .running m₁ → m₁.Aims P.lines P.code

/-- Walks from a configuration that take at most so many steps end in machines with a property. -/
def Brings (P : Setup) (T : Machine → Prop) (N : Nat) (Q : Machine → Prop) (c : Config) : Prop :=
  Clear P T c.code ∧ ∀ m, Holds P m c → ∀ n ≤ N, ∀ m', m.Aiming P n →
    Machine.Until P.code T n m m' → Q m'

/-- Walks end in machines with a property that start with a stack and a frame, and with a heap that
another one may have grown to. -/
def Resumes (P : Setup) (T : Machine → Prop) (N : Nat) (Q : Machine → Prop) (k : List Line)
    (S H : List Word) (fp : Nat) : Prop :=
  ∀ H' ra tm o, H <+: H' → Brings P T N Q ⟨k, S, H', fp, ra, tm, o⟩

variable {P : Setup} {T Q : Machine → Prop} {N : Nat} {k k' : List Line} {S H : List Word}
  {fp : Nat} {ra tm u v w : Word} {o : List Word}

theorem Clear.mono (h : Clear P T k) (hk : k <:+ k') : Clear P T k' :=
  fun m x k'' hk'' => h m x k'' (hk.trans hk'')

variable {m : Machine} {n : Nat}

theorem Machine.Aiming.mono {i : Nat} (h : m.Aiming P n) (hle : i ≤ n) : m.Aiming P i :=
  fun j hj => h j (Nat.lt_of_lt_of_le hj hle)

/-- What holds of a run holds of its part after some steps. -/
theorem Machine.Aiming.of_run {m' : Machine} {i : Nat} (h : m.Aiming P (i + n))
    (hrun : m.run P.code i = .running m') : m'.Aiming P n := by
  intro j hj m₁ hm₁
  refine h (i + j) (by omega) m₁ ?_
  rw [run_add, hrun]
  exact hm₁

theorem Machine.Aiming.of_step {m' : Machine} (h : m.Aiming P (n + 1))
    (hstep : m.step P.code = .running m') : m'.Aiming P n := by
  rw [Nat.add_comm] at h
  refine h.of_run ?_
  rw [run_succ, hstep]
  rfl

theorem Resumes.mono {H' : List Word} (h : Resumes P T N Q k S H fp) (hH : H <+: H') :
    Resumes P T N Q k S H' fp :=
  fun H'' ra tm o hH' => h H'' ra tm o (hH.trans hH')

theorem Resumes.clear (h : Resumes P T N Q k S H fp) : Clear P T k :=
  (h H 0 0 [] prefix_rfl).1

namespace Brings

/-! ### Lines -/

/-- The walk ends here. -/
theorem of_stop {c : Config} (hclear : Clear P T c.code) (hstop : ∀ m, Holds P m c → T m)
    (hQ : ∀ m, Holds P m c → Q m) : Brings P T N Q c := by
  refine ⟨hclear, fun m hm n _ m' _ huntil => ?_⟩
  have hT := hstop m hm
  cases huntil with
  | here _ => exact hQ m hm
  | next hnot | call hnot => exact absurd hT hnot

variable {x : Line} {l : Label} {n : Nat} {ws : List Word}

section

variable (hx : x.width ≠ 0 ∧ x ≠ .op .js)

include hx

/-- One line that is no jump to an address on the stack. -/
theorem of_step (hclear : Clear P T k)
    (hstep : ∀ m m', Holds P m ⟨x :: k, S, H, fp, ra, tm, o⟩ → m.step P.code = .running m' →
      ∃ c', Holds P m' c' ∧ Brings P T N Q c') : Brings P T N Q ⟨x :: k, S, H, fp, ra, tm, o⟩ := by
  refine ⟨hclear.mono (suffix_cons _ _), fun m hm n hn m' haiming huntil => ?_⟩
  have hstays := hm.turn_stays rfl hx
  cases huntil with
  | here hT =>
    refine absurd hT (hclear m x k suffix_rfl hm.code_suffix hx.1 hm.ip_eq ?_)
    rw [hstays]
    nofun
  | next _ _ hm₁ rest =>
    obtain ⟨c', hc', hbrings⟩ := hstep m _ hm hm₁
    exact hbrings.2 _ hc' _ (by omega) m' (haiming.of_step hm₁) rest
  | call _ hcalls =>
    rw [hstays] at hcalls
    cases hcalls

/-- A line that leads to one configuration, if it leads on. -/
theorem of_next {c' : Config} (hk : c'.code <:+ k)
    (hstep : ∀ m, Holds P m ⟨x :: k, S, H, fp, ra, tm, o⟩ →
      ∃ m', m.step P.code = .running m' ∧ Holds P m' c') (h : Brings P T N Q c') :
    Brings P T N Q ⟨x :: k, S, H, fp, ra, tm, o⟩ := by
  refine of_step hx (h.1.mono hk) fun m m' hm hm' => ?_
  obtain ⟨m₁, hm₁, hc'⟩ := hstep m hm
  obtain rfl : m₁ = m' := Machine.Outcome.running.inj (hm₁.symm.trans hm')
  exact ⟨c', hc', h⟩

/-- A line that pushes a word is one step of the walk.  Without room for the word the machine
stops, and nothing is to be shown. -/
theorem pushing (hpushing : Pushing P x ⟨k, S, H, fp, ra, tm, o⟩ w)
    (h : Brings P T N Q ⟨k, w :: S, H, fp, ra, tm, o⟩) :
    Brings P T N Q ⟨x :: k, S, H, fp, ra, tm, o⟩ := by
  refine of_step hx h.1 fun m m' hm hm' => ?_
  obtain ⟨m₁, hm₁, -, -, hstep⟩ := hpushing m hm
  rw [hstep] at hm'
  by_cases hr : m₁.hp < m₁.sp
  · obtain ⟨hpush, hm₂⟩ := hm₁.push hr w
    rw [hpush, Machine.settle] at hm'
    cases hm'
    exact ⟨_, hm₂, h⟩
  · rw [Machine.push, if_pos (by omega), Machine.settle] at hm'
    cases hm'

end

theorem push {n : Int} (h : Brings P T N Q ⟨k, Int64.ofInt n :: S, H, fp, ra, tm, o⟩) :
    Brings P T N Q ⟨.push n :: k, S, H, fp, ra, tm, o⟩ :=
  pushing (by simp [Line.width]) .push h

theorem pushLabel
    (h : Brings P T N Q ⟨k, Int64.ofNat (Line.address l P.lines) :: S, H, fp, ra, tm, o⟩) :
    Brings P T N Q ⟨.pushLabel (some l) :: k, S, H, fp, ra, tm, o⟩ :=
  pushing (by simp [Line.width]) .pushLabel h

theorem lra (h : Brings P T N Q ⟨k, ra :: S, H, fp, ra, tm, o⟩) :
    Brings P T N Q ⟨.op .lra :: k, S, H, fp, ra, tm, o⟩ :=
  pushing (by simp [Line.width]) .lra h

theorem ltm (h : Brings P T N Q ⟨k, tm :: S, H, fp, ra, tm, o⟩) :
    Brings P T N Q ⟨.op .ltm :: k, S, H, fp, ra, tm, o⟩ :=
  pushing (by simp [Line.width]) .ltm h

theorem lfp (h : Brings P T N Q ⟨k, Int64.ofNat fp :: S, H, fp, ra, tm, o⟩) :
    Brings P T N Q ⟨.op .lfp :: k, S, H, fp, ra, tm, o⟩ :=
  pushing (by simp [Line.width]) .lfp h

theorem lhp (h : Brings P T N Q ⟨k, Int64.ofNat H.length :: S, H, fp, ra, tm, o⟩) :
    Brings P T N Q ⟨.op .lhp :: k, S, H, fp, ra, tm, o⟩ :=
  pushing (by simp [Line.width]) .lhp h

theorem of_effect {i : Opcode} {c' : Config} (hi : i ≠ .halt ∧ i ≠ .js) (hc : c'.code = k)
    (heff : Effects P i ⟨k, S, H, fp, ra, tm, o⟩ c') (h : Brings P T N Q c') :
    Brings P T N Q ⟨.op i :: k, S, H, fp, ra, tm, o⟩ := by
  refine of_next ⟨by simp [Line.width], by simpa using hi.2⟩ (hc ▸ suffix_rfl) ?_ h
  exact fun m hm => heff.step hi.1 hm

theorem pop (h : Brings P T N Q ⟨k, S, H, fp, ra, tm, o⟩) :
    Brings P T N Q ⟨.op .pop :: k, w :: S, H, fp, ra, tm, o⟩ :=
  of_effect (by decide) rfl .pop h

theorem add (h : Brings P T N Q ⟨k, (u + v) :: S, H, fp, ra, tm, o⟩) :
    Brings P T N Q ⟨.op .add :: k, v :: u :: S, H, fp, ra, tm, o⟩ :=
  of_effect (by decide) rfl .add h

theorem sub (h : Brings P T N Q ⟨k, (u - v) :: S, H, fp, ra, tm, o⟩) :
    Brings P T N Q ⟨.op .sub :: k, v :: u :: S, H, fp, ra, tm, o⟩ :=
  of_effect (by decide) rfl .sub h

theorem mult (h : Brings P T N Q ⟨k, (u * v) :: S, H, fp, ra, tm, o⟩) :
    Brings P T N Q ⟨.op .mult :: k, v :: u :: S, H, fp, ra, tm, o⟩ :=
  of_effect (by decide) rfl .mult h

theorem sra (h : Brings P T N Q ⟨k, S, H, fp, w, tm, o⟩) :
    Brings P T N Q ⟨.op .sra :: k, w :: S, H, fp, ra, tm, o⟩ :=
  of_effect (by decide) rfl .sra h

theorem stm (h : Brings P T N Q ⟨k, S, H, fp, ra, w, o⟩) :
    Brings P T N Q ⟨.op .stm :: k, w :: S, H, fp, ra, tm, o⟩ :=
  of_effect (by decide) rfl .stm h

theorem sfp {a : Nat} (h : Brings P T N Q ⟨k, S, H, a, ra, tm, o⟩) :
    Brings P T N Q ⟨.op .sfp :: k, Int64.ofNat a :: S, H, fp, ra, tm, o⟩ :=
  of_effect (by decide) rfl .sfp h

theorem cfp (h : Brings P T N Q ⟨k, S, H, P.size - S.length, ra, tm, o⟩) :
    Brings P T N Q ⟨.op .cfp :: k, S, H, fp, ra, tm, o⟩ :=
  of_effect (by decide) rfl .cfp h

theorem print (h : Brings P T N Q ⟨k, w :: S, H, fp, ra, tm, w :: o⟩) :
    Brings P T N Q ⟨.op .print :: k, w :: S, H, fp, ra, tm, o⟩ :=
  of_effect (by decide) rfl .print h

/-- A division leads on only if the divisor is not zero. -/
theorem div (h : Brings P T N Q ⟨k, (u / v) :: S, H, fp, ra, tm, o⟩) :
    Brings P T N Q ⟨.op .div :: k, v :: u :: S, H, fp, ra, tm, o⟩ := by
  by_cases hv : v = 0
  · subst hv
    refine of_step (by simp [Line.width]) h.1 fun m m' hm hm' => ?_
    obtain ⟨hstep, hm₁⟩ := hm.step_op rfl (by decide)
    obtain ⟨hpop, hm₂⟩ := hm₁.pop rfl
    obtain ⟨hpop', -⟩ := hm₂.pop rfl
    rw [hstep] at hm'
    simp only [Machine.execute, Machine.divide, bind, EStateM.bind, hpop, hpop'] at hm'
    cases hm'
  · exact of_effect (by decide) rfl (.div hv) h

/-- Some word is loaded. -/
theorem lw (h : ∀ v, Brings P T N Q ⟨k, v :: S, H, fp, ra, tm, o⟩) :
    Brings P T N Q ⟨.op .lw :: k, w :: S, H, fp, ra, tm, o⟩ := by
  refine of_step (by simp [Line.width]) (h 0).1 fun m m' hm hm' => ?_
  obtain ⟨hstep, hm₁⟩ := hm.step_op rfl (by decide)
  obtain ⟨hpop, hm₂⟩ := hm₁.pop rfl
  rw [hstep] at hm'
  simp only [Machine.execute, bind, EStateM.bind, hpop, Machine.load] at hm'
  cases hload : Machine.load? { m.fetched with sp := m.fetched.sp + 1 } w with
  | none =>
    simp only [hload] at hm'
    cases hm'
  | some v =>
    obtain ⟨hpush, hm₃⟩ := hm₂.push (Nat.lt_succ_of_le hm₁.hp_le) v
    simp only [hload, hpush] at hm'
    cases hm'
    exact ⟨_, hm₃, h v⟩

/-- A word is written to the first free cell of the heap, which no configuration tells of. -/
theorem sw (h : Brings P T N Q ⟨k, S, H, fp, ra, tm, o⟩) :
    Brings P T N Q ⟨.op .sw :: k, Int64.ofNat H.length :: w :: S, H, fp, ra, tm, o⟩ := by
  refine of_next (by simp [Line.width]) suffix_rfl (fun m hm => ?_) h
  obtain ⟨m', hstep, -, -, hm'⟩ := hm.sw
  exact ⟨m', hstep, hm'.toHolds⟩

/-- The first free cell of the heap is reserved, with whatever word is in it. -/
theorem shp (h : ∀ v, Brings P T N Q ⟨k, S, H ++ [v], fp, ra, tm, o⟩) :
    Brings P T N Q ⟨.op .shp :: k, Int64.ofNat (H.length + 1) :: S, H, fp, ra, tm, o⟩ := by
  refine of_step (by simp [Line.width]) (h 0).1 fun m m' hm hm' => ?_
  have hlt : m.hp < m.memory.size := by
    have hle := hm.hp_le
    have hsp := hm.sp_eq
    have hsize := hm.size_eq
    simp only [length_cons] at hsp
    omega
  obtain ⟨m₁, hm₁, hc⟩ := Pending.shp { hm with pending := Array.getElem?_eq_getElem hlt }
  obtain rfl : m₁ = m' := Machine.Outcome.running.inj (hm₁.symm.trans hm')
  exact ⟨_, hc, h _⟩

theorem mark (h : Brings P T N Q ⟨k, S, H, fp, ra, tm, o⟩) :
    Brings P T N Q ⟨.mark l :: k, S, H, fp, ra, tm, o⟩ :=
  ⟨h.1.mono (suffix_cons _ _), fun m hm => h.2 m hm.mark⟩

theorem branch_always (hk : .mark l :: k' <:+ k) (h : Brings P T N Q ⟨k', S, H, fp, ra, tm, o⟩) :
    Brings P T N Q ⟨.branch .always l :: k, S, H, fp, ra, tm, o⟩ :=
  of_next (by simp [Line.width]) ((suffix_cons _ _).trans hk) (fun _ hm => hm.branch_always hk) h

/-- A branch with a test goes one way or the other. -/
theorem branch {b : Branch} (hb : b ≠ .always) (hk : .mark l :: k' <:+ k)
    (hyes : Brings P T N Q ⟨k', S, H, fp, ra, tm, o⟩)
    (hno : Brings P T N Q ⟨k, S, H, fp, ra, tm, o⟩) :
    Brings P T N Q ⟨.branch b l :: k, v :: u :: S, H, fp, ra, tm, o⟩ := by
  refine of_step (by simp [Line.width]) hno.1 fun m m' hm hm' => ?_
  obtain ⟨m₁, hm₁, htaken, hnot⟩ := hm.branch hb
  by_cases ht : b.test u v
  · obtain ⟨haddr, hs⟩ := hm₁.address_eq hk
    rw [htaken ht, haddr] at hm'
    cases hm'
    exact ⟨_, hm₁.jump hs, hyes⟩
  · rw [hnot ht] at hm'
    cases hm'
    exact ⟨_, hm₁, hno⟩

/-! ### Blocks -/

section

variable (h : ∀ v, Brings P T N Q ⟨k, v :: S, H, fp, ra, tm, o⟩)

include h

theorem links : Brings P T N Q ⟨List.replicate n (.op .lw) ++ k, w :: S, H, fp, ra, tm, o⟩ := by
  induction n generalizing w with
  | zero => exact h w
  | succ n ih => exact .lw fun v => ih

theorem frame : Brings P T N Q ⟨Code.frame n ++ k, S, H, fp, ra, tm, o⟩ :=
  .lfp (links h)

theorem offset {n : Int} :
    Brings P T N Q ⟨.push n :: .op .add :: .op .lw :: k, w :: S, H, fp, ra, tm, o⟩ :=
  .push (.add (.lw h))

theorem load {use : Use} : Brings P T N Q ⟨Code.load use ++ k, S, H, fp, ra, tm, o⟩ := by
  rw [Code.load, append_assoc]
  exact frame fun v => offset h

end

theorem branchToBool {b : Branch} (hb : b ≠ .always)
    (h : ∀ v, Brings P T N Q ⟨k, v :: S, H, fp, ra, tm, o⟩) :
    Brings P T N Q ⟨Code.branchToBool b n ++ k, v :: u :: S, H, fp, ra, tm, o⟩ :=
  .branch hb ⟨[_, _], rfl⟩ (.push (.mark (h _))) (.push (.branch_always ⟨[_, _], rfl⟩ (h _)))

theorem pops (hn : ws.length = n) (h : Brings P T N Q ⟨k, S, H, fp, ra, tm, o⟩) :
    Brings P T N Q ⟨List.replicate n (.op .pop) ++ k, ws ++ S, H, fp, ra, tm, o⟩ := by
  subst hn
  induction ws with
  | nil => exact h
  | cons w ws ih => exact .pop ih

/-- Reserving a cell makes the heap one cell longer. -/
theorem bumpHeap (h : ∀ v, Brings P T N Q ⟨k, S, H ++ [v], fp, ra, tm, o⟩) :
    Brings P T N Q ⟨Code.bumpHeap ++ k, S, H, fp, ra, tm, o⟩ := by
  refine .lhp (.push (.add ?_))
  rw [Word.ofNat_add_ofInt (b := H.length + 1) (by simp)]
  exact .shp h

/-- The lines that move a word from the stack to the heap.  What was in the heap is still there;
which word is added does not matter. -/
theorem allocate (h : ∀ v, Brings P T N Q ⟨k, S, H ++ [v], fp, ra, tm, o⟩) :
    Brings P T N Q ⟨Code.allocate ++ k, w :: S, H, fp, ra, tm, o⟩ :=
  .lhp (.sw (bumpHeap h))

theorem allocates (hn : ws.length = n) (h : Resumes P T N Q k S H fp) :
    Brings P T N Q ⟨(List.replicate n Code.allocate).flatten ++ k, ws ++ S, H, fp, ra, tm, o⟩ := by
  subst hn
  induction ws generalizing H with
  | nil => exact h H ra tm o prefix_rfl
  | cons w ws ih =>
    rw [length_cons, replicate_succ, flatten_cons, append_assoc]
    exact allocate fun v => ih (h.mono (prefix_append H [v]))

/-- Building an object makes the heap longer and leaves its address. -/
theorem construct {off : Int} (hn : ws.length = n) (h : ∀ v, Resumes P T N Q k (v :: S) H fp) :
    Brings P T N Q ⟨Code.construct n off ++ k, ws ++ S, H, fp, ra, tm, o⟩ := by
  simp only [Code.construct, append_assoc]
  refine allocates hn fun H' ra tm o hH => ?_
  refine .push (.lw fun v => offset fun v => .lhp (.sw (.lhp (bumpHeap fun v' => ?_))))
  exact h _ _ ra tm o (hH.trans (prefix_append H' [v']))

end Brings

end Foolscap
