import Foolscap.Machine.Run
import Foolscap.Proofs.Machine.Runs

/-!
# Courses of runs

Runs of so many steps, and how they go along a path.
-/

namespace Foolscap

/-! ### Steps of a run -/

namespace Machine

variable {code : Array Word} {m m' : Machine} {n k : Nat}

/-- One more step of a run. -/
theorem run_succ_of_running (h : run code n m = .running m') :
    run code (n + 1) m = step code m' := by
  rw [run_add, h]
  show run code 1 m' = _
  rw [run_succ]
  cases step code m' <;> rfl

/-- The machine of an outcome that leads on. -/
def Outcome.running? : Outcome → Option Machine
  | .running m => some m
  | _ => none

theorem Outcome.running?_eq_some_iff {s : Outcome} : s.running? = some m ↔ s = .running m := by
  cases s <;> simp [running?]

/-- A run that has ended stays as it is. -/
theorem run_of_le {s : Outcome} (h : run code n m = s) (hs : ∀ m', s ≠ .running m')
    (hle : n ≤ k) : run code k m = s := by
  obtain ⟨j, rfl⟩ := Nat.exists_eq_add_of_le hle
  rw [run_add, h]
  cases s with
  | running m' => exact absurd rfl (hs m')
  | halted m' => rfl
  | failed f m' => rfl

/-- A run has one end. -/
theorem run_eq_run {s t : Outcome} (hs : run code n m = s) (hs' : ∀ m', s ≠ .running m')
    (ht : run code k m = t) (ht' : ∀ m', t ≠ .running m') : s = t := by
  rcases Nat.le_total n k with hle | hle
  · rw [← ht, run_of_le hs hs' hle]
  · rw [← hs, run_of_le ht ht' hle]

/-- A run that is still going was going before. -/
theorem exists_running_of_le (h : run code k m = .running m') (hle : n ≤ k) :
    ∃ m₁, run code n m = .running m₁ := by
  cases hn : run code n m with
  | running m₁ => exact ⟨m₁, rfl⟩
  | halted m₁ | failed f m₁ =>
    rw [run_of_le hn nofun hle] at h
    cases h

/-- The memory of a machine is as large as it was asked for, and can be addressed. -/
theorem size_of_new? {size : Int} (h : new? size = some m) :
    0 < m.memory.size ∧ m.memory.size < Word.limit ∧
      (0 < size → (m.memory.size : Int) = size) := by
  rw [new?] at h
  split at h
  · cases h
  · next hle =>
    obtain rfl := Option.some.inj h
    simp only [new, Array.size_replicate]
    have hmax : maxSize < (Word.limit : Int) := by decide
    have hdefault : 0 < defaultSize ∧ defaultSize < Word.limit := by decide
    split
    · exact ⟨hdefault.1, hdefault.2, fun hpos => by omega⟩
    · exact ⟨by omega, by omega, fun hpos => by omega⟩

end Machine

/-- The machines of a path are those of a run, and all but the last are ready for the instructions
that they are at. -/
theorem Path.run {P : Setup} {m m' : Machine} (h : Path P m m') :
    ∃ n, m.run P.code n = .running m' ∧
      ∀ i < n, ∃ m₁ m₂, m.run P.code i = .running m₁ ∧ Ready P m₁ ∧
        m₁.step P.code = .running m₂ := by
  induction h with
  | refl => exact ⟨0, rfl, fun i hi => absurd hi (Nat.not_lt_zero i)⟩
  | @tail m₁ m₂ _ hlast ih =>
    obtain ⟨n, hn, hbefore⟩ := ih
    refine ⟨n + 1, (Machine.run_succ_of_running hn).trans hlast.2, fun i hi => ?_⟩
    rcases Nat.lt_succ_iff_lt_or_eq.mp hi with hi | rfl
    · exact hbefore i hi
    · exact ⟨m₁, m₂, hn, hlast.1, hlast.2⟩

/-! ### Runs of programs -/

namespace Executable

variable {x : Executable} {m m' : Machine} {s : Stop}

/-- A run of a program from a fresh memory ends in a stop, whether it is traced or not. -/
def Reaches (x : Executable) (m : Machine) (s : Stop) : Prop :=
  ∃ limit, ∀ trace, ∃ log, x.run trace limit m = some ⟨s, log⟩

/-- A program ends in a stop exactly if so many steps of its machine do. -/
theorem reaches_iff : x.Reaches m s ↔ ∃ n, x.stop? (m.reset.run x.code n) = some s := by
  have hrun : ∀ trace limit, ∃ log : Stop → List LogLine, x.run trace limit m =
      (x.stop? (m.reset.run x.code limit)).map fun stop => ⟨stop, log stop⟩ := by
    intro trace limit
    rw [run]
    cases trace with
    | false => exact ⟨_, rfl⟩
    | true =>
      rw [if_pos rfl]
      have houtcome := x.traced_outcome limit [] m.reset
      revert houtcome
      generalize x.traced limit [] m.reset = r
      obtain ⟨lines, outcome⟩ := r
      rintro rfl
      exact ⟨_, rfl⟩
  constructor
  · rintro ⟨limit, h⟩
    obtain ⟨log, hlog⟩ := h false
    obtain ⟨log', hlog'⟩ := hrun false limit
    rw [hlog', Option.map_eq_some_iff] at hlog
    obtain ⟨s', hs', heq⟩ := hlog
    cases heq
    exact ⟨limit, hs'⟩
  · rintro ⟨limit, h⟩
    refine ⟨limit, fun trace => ?_⟩
    obtain ⟨log, hlog⟩ := hrun trace limit
    exact ⟨log s, by rw [hlog, h]; rfl⟩

/-- A program ends where a step from a machine that its run comes to stops. -/
theorem reaches_of_step {n : Nat} (hn : m.reset.run x.code n = .running m')
    (hs : x.stop? (m'.step x.code) = some s) : x.Reaches m s :=
  reaches_iff.mpr ⟨n + 1, by rw [Machine.run_succ_of_running hn, hs]⟩

/-- A run of a program halts with a value on top of the stack and some numbers printed, the latest
first. -/
def Yields (x : Executable) (m : Machine) (v : Word) (printed : List Word) : Prop :=
  ∃ m', x.Reaches m ⟨m', none⟩ ∧ m'.top? = some v ∧ m'.printed = printed

/-- A run of a program ends in a fault after some numbers are printed, the latest first. -/
def Faults (x : Executable) (m : Machine) (f : Fault) (printed : List Word) : Prop :=
  ∃ m' e, x.Reaches m ⟨m', some e⟩ ∧ e.fault = f ∧ m'.printed = printed

/-- A program that halts takes so many steps to a halt. -/
theorem Reaches.halted (h : x.Reaches m ⟨m', none⟩) : ∃ n, m.reset.run x.code n = .halted m' := by
  obtain ⟨n, hn⟩ := reaches_iff.mp h
  refine ⟨n, ?_⟩
  cases hrun : m.reset.run x.code n with
  | running m₁ => simp [hrun, stop?] at hn
  | halted m₁ =>
    rw [hrun] at hn
    cases hn
    rfl
  | failed f m₁ => simp [hrun, stop?] at hn

end Executable

end Foolscap
