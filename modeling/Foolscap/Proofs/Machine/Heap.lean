import Foolscap.Assembly.Generate
import Foolscap.Proofs.Machine.Lines

/-!
# Allocation

A heap cell is written first and reserved afterwards.  In between it lies outside of what a
configuration knows, so these blocks of code are followed on the machine itself.

## Design Notes

Reserving a cell takes two cells of the stack.  Where just these two are left, the second one is the
cell to be reserved and the word in it is lost: the second case of `Spent`.
-/

namespace Foolscap

open List

/-- A machine is in a configuration and the first free cell of the heap contains a word. -/
structure Pending (P : Setup) (m : Machine) (c : Config) (w : Word) : Prop extends Holds P m c where
  pending : m.memory[m.hp]? = some w

variable {P : Setup} {d : Nat} {Q : Config → Prop} {k : List Line} {S H : List Word}
  {fp : Nat} {ra tm u v w : Word} {o : List Word} {m : Machine} {c : Config}

namespace Pending

/-- A word can be pushed above the pending one. -/
theorem push (h : Pending P m c w) (hr : m.hp + 1 < m.sp) (v : Word) :
    Machine.push v m = .ok () (m.pushed v) ∧
      Pending P (m.pushed v) { c with stack := v :: c.stack } w := by
  obtain ⟨hpush, hm⟩ := h.toHolds.push (by omega) v
  refine ⟨hpush, { hm with pending := ?_ }⟩
  show (m.memory.setIfInBounds (m.sp - 1) v)[m.hp]? = some w
  rw [Array.getElem?_setIfInBounds_ne (by omega)]
  exact h.pending

theorem pop (h : Pending P m c w) (hs : c.stack = v :: S) :
    Machine.pop m = .ok v { m with sp := m.sp + 1 } ∧
      Pending P { m with sp := m.sp + 1 } { c with stack := S } w := by
  obtain ⟨hpop, hm⟩ := h.toHolds.pop hs
  exact ⟨hpop, { hm with pending := h.pending }⟩

theorem add (h : Pending P m ⟨k, v :: u :: S, H, fp, ra, tm, o⟩ w) :
    ∃ m', Machine.execute P.code .add m = .ok () m' ∧
      Pending P m' ⟨k, (u + v) :: S, H, fp, ra, tm, o⟩ w := by
  obtain ⟨hpop, hm₁⟩ := h.pop rfl
  obtain ⟨hpop', hm₂⟩ := hm₁.pop rfl
  have hle : m.hp ≤ m.sp := h.hp_le
  obtain ⟨hpush, hm₃⟩ := hm₂.push (by show m.hp + 1 < m.sp + 1 + 1; omega) (u + v)
  refine ⟨_, ?_, hm₃⟩
  simp only [Machine.execute, Machine.arithmetic, bind, EStateM.bind, hpop, hpop', hpush]

/-- The address of the pending word can be pushed. -/
theorem lhp (h : Pending P m ⟨.op .lhp :: k, S, H, fp, ra, tm, o⟩ w) (hr : m.hp + 1 < m.sp) :
    Machine.step P.code m = .running (m.fetched.pushed (Int64.ofNat H.length)) ∧
      Pending P (m.fetched.pushed (Int64.ofNat H.length))
        ⟨k, Int64.ofNat H.length :: S, H, fp, ra, tm, o⟩ w := by
  obtain ⟨hm₁, hstep⟩ := h.toHolds.step_lhp
  obtain ⟨hpush, hm₂⟩ := Pending.push { hm₁ with pending := h.pending } hr (Int64.ofNat H.length)
  exact ⟨by rw [hstep, hpush]; rfl, hm₂⟩

/-- The new heap pointer is set: the pending word becomes part of the heap. -/
theorem shp (h : Pending P m ⟨.op .shp :: k, Int64.ofNat (H.length + 1) :: S, H, fp, ra, tm, o⟩ w) :
    ∃ m', Machine.step P.code m = .running m' ∧ Holds P m' ⟨k, S, H ++ [w], fp, ra, tm, o⟩ := by
  obtain ⟨hstep, hm₁⟩ := h.toHolds.step_op rfl (by decide)
  obtain ⟨hpop, hm₂⟩ := Pending.pop (w := w) { hm₁ with pending := h.pending } rfl
  have hhp : m.hp = H.length := h.hp_eq
  have hle : m.hp ≤ m.sp := h.hp_le
  have hlt : H.length + 1 < Word.limit := by
    have := h.sp_eq
    have := P.size_lt
    simp only [length_cons] at *
    omega
  refine ⟨{ m.fetched with sp := m.sp + 1, hp := H.length + 1 }, ?_,
    { hm₂ with hp_eq := by simp, hp_le := ?_, heap_eq := ?_ }⟩
  · rw [hstep]
    have hno : ¬ m.fetched.sp + 1 < H.length + 1 := by show ¬ m.sp + 1 < _; omega
    simp only [Machine.execute, bind, EStateM.bind, hpop, Machine.setHeap,
      if_neg (Word.ofNat_not_neg hlt), Word.toNatClampNeg_ofNat hlt]
    rw [if_neg hno]
    rfl
  · show H.length + 1 ≤ m.sp + 1
    omega
  · intro i v hi
    by_cases hlt : i < H.length
    · rw [List.getElem?_append_left hlt] at hi
      exact h.heap_eq i v hi
    · have hi' : i = H.length := by
        have := (List.getElem?_eq_some_iff.mp hi).1
        simp only [length_append, length_singleton] at this
        omega
      subst hi'
      simp only [List.getElem?_concat_length, Option.some.injEq] at hi
      rw [← hi, ← hhp]
      exact h.pending

/-- The end of reserving a cell, where there is room for it. -/
theorem reserve (h : Pending P m
      ⟨.push 1 :: .op .add :: .op .shp :: k, Int64.ofNat H.length :: S, H, fp, ra, tm, o⟩ w)
    (hr : m.hp + 1 < m.sp) : ∃ m', Path P m m' ∧ Holds P m' ⟨k, S, H ++ [w], fp, ra, tm, o⟩ := by
  obtain ⟨m₁, hm₁, hsp, hhp, hmem, hstep⟩ := h.toHolds.step_push
  obtain ⟨hpush, hm₂⟩ := Pending.push (w := w)
    { hm₁ with pending := by rw [hmem, hhp]; exact h.pending } (by omega) (Int64.ofInt 1)
  have hstep₁ : Machine.step P.code m = .running (m₁.pushed (Int64.ofInt 1)) := by
    rw [hstep, hpush, Machine.settle]
  obtain ⟨hstep₂, hm₃⟩ := hm₂.toHolds.step_op rfl (by decide)
  obtain ⟨m₄, hadd, hm₄⟩ := Pending.add (w := w) { hm₃ with pending := hm₂.pending }
  rw [Word.ofNat_add_ofInt (b := H.length + 1) (by simp)] at hm₄
  obtain ⟨m₅, hstep₃, hm₅⟩ := hm₄.shp
  have hstep₂' : Machine.step P.code (m₁.pushed (Int64.ofInt 1)) = .running m₄ := by
    rw [hstep₂, hadd, Machine.settle]
  exact ⟨m₅, .head ⟨h.ready rfl (by simp [Line.width]), hstep₁⟩
    (.head ⟨hm₂.ready rfl (by simp [Line.width]), hstep₂'⟩
      (.single ⟨hm₄.ready rfl (by simp [Line.width]), hstep₃⟩)), hm₅⟩

end Pending

/-- A number cannot be pushed where the stack has met the heap. -/
theorem Holds.spent_push {n : Int} (h : Holds P m ⟨.push n :: k, S, H, fp, ra, tm, o⟩)
    (hr : m.sp = m.hp) : Spent P.code m := by
  obtain ⟨m₁, -, hsp, hhp, -, hstep⟩ := h.step_push
  have hfail : Machine.push (Int64.ofInt n) m₁ = .error .stackOverflow m₁ := by
    rw [Machine.push, if_pos (by omega)]
  exact ⟨hr, .inl ⟨m₁, by rw [hstep, hfail, Machine.settle]⟩⟩

/-- Where the stack has met the heap before the heap pointer is set, the cell to be reserved was
overwritten. -/
theorem Holds.spent_reserve
    (h : Holds P m ⟨.op .add :: .op .shp :: k, v :: u :: S, H, fp, ra, tm, o⟩)
    (hr : m.sp = m.hp) : Spent P.code m := by
  obtain ⟨hstep, hm₁⟩ := h.step_op rfl (by decide)
  obtain ⟨m₂, heff, hm₂⟩ := hm₁.arithmetic (· + ·)
  refine ⟨hr, .inr ⟨m₂, by rw [hstep]; simp only [Machine.execute, heff, Machine.settle], ?_,
    hm₂.fetch rfl rfl⟩⟩
  have h₁ := h.sp_eq
  have h₂ := hm₂.sp_eq
  have h₃ := h.hp_eq
  have h₄ := hm₂.hp_eq
  simp only [length_cons] at h₁ h₂ h₃ h₄
  omega

/-- Reserving the cell of the pending word makes it part of the heap, unless the memory is spent on
the way. -/
theorem Pending.bump (h : Pending P m ⟨Code.bumpHeap ++ k, S, H, fp, ra, tm, o⟩ w)
    (hr : m.hp < m.sp) :
    ∃ m', Path P m m' ∧ ((Spent P.code m' ∧ P.size ≤ S.length + H.length + 2) ∨
      Holds P m' ⟨k, S, H ++ [w], fp, ra, tm, o⟩) := by
  have hsize : m.sp + S.length = P.size := h.sp_eq
  have hheap : m.hp = H.length := h.hp_eq
  have hready := h.toHolds.ready rfl (by simp [Line.width])
  obtain ⟨hm₁, hstep⟩ := h.toHolds.step_lhp
  obtain ⟨hpush, hm₂⟩ := hm₁.push hr (Int64.ofNat H.length)
  rw [hpush, Machine.settle] at hstep
  by_cases hone : m.sp = m.hp + 1
  · have hspent := hm₂.spent_push (by show m.sp - 1 = m.hp; omega)
    exact ⟨_, .single ⟨hready, hstep⟩, .inl ⟨hspent, by omega⟩⟩
  by_cases htwo : m.sp = m.hp + 2
  · obtain ⟨m₃, hm₃, hsp, hhp, -, hstep'⟩ := hm₂.step_push
    have hsp' : m₃.sp = m.sp - 1 := hsp
    have hhp' : m₃.hp = m.hp := hhp
    obtain ⟨hpush', hm₄⟩ := hm₃.push (by omega) (Int64.ofInt 1)
    rw [hpush', Machine.settle] at hstep'
    have hspent := hm₄.spent_reserve (by show m₃.sp - 1 = m₃.hp; omega)
    refine ⟨_, .head ⟨hready, hstep⟩ (.single ⟨?_, hstep'⟩), .inl ⟨hspent, by omega⟩⟩
    exact hm₂.ready rfl (by simp [Line.width])
  · obtain ⟨-, hp₂⟩ := h.lhp (by omega)
    obtain ⟨m₃, hpath, hm₃⟩ := hp₂.reserve (by show m.hp + 1 < m.sp - 1; omega)
    exact ⟨m₃, .head ⟨hready, hstep⟩ hpath, .inr hm₃⟩

/-- A word is written into the first free cell of the heap. -/
theorem Holds.sw (h : Holds P m ⟨.op .sw :: k, Int64.ofNat H.length :: w :: S, H, fp, ra, tm, o⟩) :
    ∃ m', Machine.step P.code m = .running m' ∧ m'.sp = m.sp + 2 ∧ m'.hp = m.hp ∧
      Pending P m' ⟨k, S, H, fp, ra, tm, o⟩ w := by
  obtain ⟨hstep, hm₁⟩ := h.step_op rfl (by decide)
  obtain ⟨hpop, hm₂⟩ := hm₁.pop rfl
  obtain ⟨hpop', hm₃⟩ := hm₂.pop rfl
  have hheap : m.hp = H.length := h.hp_eq
  have hle : m.hp ≤ m.sp := h.hp_le
  have hsize : m.memory.size = P.size := h.size_eq
  have hsp : m.sp + (S.length + 1 + 1) = P.size := h.sp_eq
  have hlt : H.length < m.memory.size := by omega
  have hlim : H.length < Word.limit := by have := P.size_lt; omega
  refine ⟨{ m.fetched with
    sp := m.sp + 2
    memory := m.memory.setIfInBounds H.length w }, ?_, rfl, rfl, { hm₃ with
      size_eq := by simpa using hsize, stack_eq := ?_, heap_eq := ?_, pending := ?_ }⟩
  · rw [hstep]
    simp only [Machine.execute, bind, EStateM.bind, hpop, hpop', Machine.store]
    rw [if_pos]
    · rw [Word.toNatClampNeg_ofNat hlim]
      rfl
    · rw [Word.toNatClampNeg_ofNat hlim, Bool.and_eq_true, decide_eq_true_eq, decide_eq_true_eq,
        ← Int64.not_lt]
      exact ⟨Word.ofNat_not_neg hlim, hlt⟩
  · intro i v hi
    show (m.memory.setIfInBounds H.length w)[m.sp + 2 + i]? = some v
    rw [Array.getElem?_setIfInBounds_ne (by omega)]
    exact hm₃.stack_eq i v hi
  · intro i v hi
    have hi' : i < H.length := (List.getElem?_eq_some_iff.mp hi).1
    show (m.memory.setIfInBounds H.length w)[i]? = some v
    rw [Array.getElem?_setIfInBounds_ne (by omega)]
    exact hm₃.heap_eq i v hi
  · show (m.memory.setIfInBounds H.length w)[m.hp]? = some w
    rw [hheap, Array.getElem?_setIfInBounds_self_of_lt hlt]

/-- A word is moved from the stack into the first free cell of the heap. -/
theorem Holds.store (h : Holds P m ⟨.op .lhp :: .op .sw :: k, w :: S, H, fp, ra, tm, o⟩) :
    Spent P.code m ∨
      ∃ m', Path P m m' ∧ Pending P m' ⟨k, S, H, fp, ra, tm, o⟩ w ∧ m'.hp + 1 < m'.sp := by
  obtain ⟨hm₁, hstep⟩ := h.step_lhp
  have hle : m.hp ≤ m.sp := h.hp_le
  by_cases hr : m.hp < m.sp
  · obtain ⟨hpush, hm₂⟩ := hm₁.push hr (Int64.ofNat H.length)
    rw [hpush, Machine.settle] at hstep
    obtain ⟨m₃, hstep', hsp, hhp, hm₃⟩ := hm₂.sw
    have hsp' : m₃.sp = m.sp - 1 + 2 := hsp
    have hhp' : m₃.hp = m.hp := hhp
    refine .inr ⟨m₃, .head ⟨h.ready rfl (by simp [Line.width]), hstep⟩
      (.single ⟨hm₂.ready rfl (by simp [Line.width]), hstep'⟩), hm₃, by omega⟩
  · have hfail :
        Machine.push (Int64.ofNat H.length) m.fetched = .error .stackOverflow m.fetched := by
      rw [Machine.push, if_pos (by show m.sp ≤ m.hp; omega)]
    exact .inl ⟨by omega, .inl ⟨_, by rw [hstep, hfail, Machine.settle]⟩⟩

/-! ### Runs -/

/-- A block that stores the top of the stack and comes to where its cell is to be reserved. -/
theorem Runs.reserving {b : List Line} {T : List Word}
    (hT : T.length ≤ S.length + 1) (hH : H.length + 1 ≤ P.heapLimit)
    (hblock : ∀ m, Holds P m ⟨.op .lhp :: .op .sw :: (b ++ (Code.bumpHeap ++ k)), w :: S, H,
        fp, ra, tm, o⟩ →
      Spent P.code m ∨ ∃ m', Path P m m' ∧
        Pending P m' ⟨Code.bumpHeap ++ k, T, H, fp, ra, tm, o⟩ w ∧ m'.hp < m'.sp)
    (h : Runs P d ⟨k, T, H ++ [w], fp, ra, tm, o⟩ Q) :
    Runs P d ⟨.op .lhp :: .op .sw :: (b ++ (Code.bumpHeap ++ k)), w :: S, H, fp, ra, tm, o⟩
      Q := by
  intro hf m hm
  obtain ⟨hstack, hheap⟩ := hf
  simp only [length_cons, length_append, Code.bumpHeap, length_nil] at hstack hheap
  have hf' : Fits P d ⟨k, T, H ++ [w], fp, ra, tm, o⟩ :=
    ⟨by simp only; omega, by simpa using hH⟩
  cases hblock m hm with
  | inl hspent =>
    refine ⟨m, .refl, .inl (hm.exhausted (d := d) ⟨?_, hheap⟩ hspent)⟩
    simp only [length_cons, length_append, Code.bumpHeap, length_nil]
    exact hstack
  | inr hnext =>
    obtain ⟨m₁, hpath, hm₁, hr⟩ := hnext
    obtain ⟨m₂, hpath', hend⟩ := hm₁.bump hr
    cases hend with
    | inl hspent => exact ⟨m₂, hpath.trans hpath', .inl ⟨hspent.1, by omega⟩⟩
    | inr hm₂ =>
      obtain ⟨m₃, hpath'', hend⟩ := h hf' m₂ hm₂
      exact ⟨m₃, (hpath.trans hpath').trans hpath'', hend⟩

/-- A word goes from the stack to the heap. -/
theorem Runs.allocate (hH : H.length + 1 ≤ P.heapLimit)
    (h : Runs P d ⟨k, S, H ++ [w], fp, ra, tm, o⟩ Q) :
    Runs P d ⟨Code.allocate ++ k, w :: S, H, fp, ra, tm, o⟩ Q := by
  refine Runs.reserving (b := []) (Nat.le_succ _) hH ?_ h
  intro m hm
  refine hm.store.imp_right ?_
  rintro ⟨m₁, hpath, hm₁, hr⟩
  exact ⟨m₁, hpath, hm₁, by omega⟩

/-- A word goes from the stack to the heap and leaves its address. -/
theorem Runs.finish (hH : H.length + 1 ≤ P.heapLimit)
    (h : Runs P d ⟨k, Int64.ofNat H.length :: S, H ++ [w], fp, ra, tm, o⟩ Q) :
    Runs P d ⟨.op .lhp :: .op .sw :: .op .lhp :: (Code.bumpHeap ++ k), w :: S, H, fp, ra, tm, o⟩
      Q := by
  refine Runs.reserving (b := [.op .lhp]) (Nat.le_refl _) hH ?_ h
  intro m hm
  refine hm.store.imp_right ?_
  rintro ⟨m₁, hpath, hm₁, hr⟩
  obtain ⟨hstep, hm₂⟩ := hm₁.lhp hr
  refine ⟨_, hpath.tail ⟨hm₁.ready rfl (by simp [Line.width]), hstep⟩, hm₂, ?_⟩
  show m₁.hp < m₁.sp - 1
  omega

end Foolscap
