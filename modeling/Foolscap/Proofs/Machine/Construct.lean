import Foolscap.Proofs.Machine.Course
import Foolscap.Proofs.Machine.Heap

/-!
# Construction of objects, to the last free cell

What the code that builds an object does for every amount of memory that is left.  Here nothing may
stay open: a block either runs out of stack or comes to its end, and which of the two it is depends
only on the number of free cells.

## Design Notes

While an argument goes from the stack to the heap, the number of free cells does not change.  So it
is one number for the whole block.
-/

namespace Foolscap

open List

/-- A configuration leads to another one. -/
def Becomes (P : Setup) (c c' : Config) : Prop :=
  ∀ m, Holds P m c → ∃ m', Path P m m' ∧ Holds P m' c'

/-- A machine comes to where it needs one more cell and there is none. -/
def Machine.Overflows (P : Setup) (m : Machine) : Prop :=
  ∃ m₁ m₂, Path P m m₁ ∧ m₁.step P.code = .failed .stackOverflow m₂

/-- A configuration leads to where one more cell is needed and there is none. -/
def Overflows (P : Setup) (c : Config) : Prop := ∀ m, Holds P m c → m.Overflows P

variable {P : Setup} {c c₁ c₂ : Config} {k : List Line} {S H : List Word} {fp r : Nat}
  {ra tm w : Word} {o : List Word} {m : Machine}

theorem Becomes.trans (h : Becomes P c c₁) (h' : Becomes P c₁ c₂) : Becomes P c c₂ := by
  intro m hm
  obtain ⟨m₁, hpath, hm₁⟩ := h m hm
  obtain ⟨m₂, hpath', hm₂⟩ := h' m₁ hm₁
  exact ⟨m₂, hpath.trans hpath', hm₂⟩

variable {m₁ m : Machine} {n off : Int} {g : Word} {args : List Word}

theorem Machine.Overflows.of_path (hpath : Path P m m₁) (h : m₁.Overflows P) : m.Overflows P := by
  obtain ⟨m₂, m₃, hpath', hfail⟩ := h
  exact ⟨m₂, m₃, hpath.trans hpath', hfail⟩

theorem Becomes.overflows (h : Becomes P c c₁) (h' : Overflows P c₁) : Overflows P c := by
  intro m hm
  obtain ⟨m₁, hpath, hm₁⟩ := h m hm
  exact (h' m₁ hm₁).of_path hpath

/-- The free cells are those that are neither heap nor stack. -/
theorem Holds.sp_eq_add (h : Holds P m c) (hr : c.stack.length + c.heap.length + r = P.size) :
    m.sp = m.hp + r := by
  have hsp := h.sp_eq
  have hhp := h.hp_eq
  omega

/-! ### Lines that push -/

/-- A word is pushed where a cell is free. -/
theorem Holds.push_settled {x : Line} (hx : x.width ≠ 0 ∧ x ≠ .op .js)
    (h : Holds P m ⟨x :: k, S, H, fp, ra, tm, o⟩) (h₁ : Holds P m₁ ⟨k, S, H, fp, ra, tm, o⟩)
    (hstep : m.step P.code = Machine.settle (Machine.push w m₁)) (hr : m₁.hp < m₁.sp) :
    Path P m (m₁.pushed w) ∧ Holds P (m₁.pushed w) ⟨k, w :: S, H, fp, ra, tm, o⟩ := by
  obtain ⟨hpush, hm₂⟩ := h₁.push hr w
  refine ⟨.single ⟨h.ready rfl hx, ?_⟩, hm₂⟩
  rw [hstep, hpush, Machine.settle]

/-- No word can be pushed where no cell is free. -/
theorem Machine.Overflows.of_push (hstep : m.step P.code = Machine.settle (Machine.push w m₁))
    (hr : m₁.sp ≤ m₁.hp) : m.Overflows P := by
  refine ⟨m, m₁, .refl, ?_⟩
  rw [hstep, Machine.push, if_pos hr, Machine.settle]

theorem Becomes.push (hr : S.length + H.length < P.size) :
    Becomes P ⟨.push n :: k, S, H, fp, ra, tm, o⟩ ⟨k, Int64.ofInt n :: S, H, fp, ra, tm, o⟩ := by
  intro m hm
  obtain ⟨m₁, hm₁, hsp, hhp, -, hstep⟩ := hm.step_push
  have hsize : m.sp + S.length = P.size := hm.sp_eq
  have hheap : m.hp = H.length := hm.hp_eq
  exact ⟨_, hm.push_settled (by simp [Line.width]) hm₁ hstep (by omega)⟩

theorem Overflows.push (hr : P.size ≤ S.length + H.length) :
    Overflows P ⟨.push n :: k, S, H, fp, ra, tm, o⟩ := by
  intro m hm
  obtain ⟨m₁, -, hsp, hhp, -, hstep⟩ := hm.step_push
  have hsize : m.sp + S.length = P.size := hm.sp_eq
  have hheap : m.hp = H.length := hm.hp_eq
  exact .of_push hstep (by omega)

/-- A line without operand that leads on whatever the room. -/
theorem Becomes.of_effect {i : Opcode} (hi : i ≠ .halt ∧ i ≠ .js)
    (heff : Effects P i ⟨k, S, H, fp, ra, tm, o⟩ c) :
    Becomes P ⟨.op i :: k, S, H, fp, ra, tm, o⟩ c := by
  intro m hm
  obtain ⟨m', hstep, hm'⟩ := heff.step hi.1 hm
  exact ⟨m', .single ⟨hm.ready rfl ⟨by simp [Line.width], by simpa using hi.2⟩, hstep⟩, hm'⟩

/-! ### Reserving a cell -/

/-- With at most one free cell, no cell can be reserved. -/
theorem Pending.bump_overflows (h : Pending P m ⟨Code.bumpHeap ++ k, S, H, fp, ra, tm, o⟩ w)
    (hr : m.sp ≤ m.hp + 1) : m.Overflows P := by
  obtain ⟨hm₁, hstep⟩ := h.toHolds.step_lhp
  by_cases hone : m.hp < m.sp
  · obtain ⟨hpath, hm₂⟩ := h.toHolds.push_settled (by simp [Line.width]) hm₁ hstep hone
    obtain ⟨m₃, -, hsp, hhp, -, hstep'⟩ := hm₂.step_push
    have hsp' : m₃.sp = m.sp - 1 := hsp
    have hhp' : m₃.hp = m.hp := hhp
    exact .of_path hpath (.of_push hstep' (by omega))
  · exact .of_push hstep (Nat.le_of_not_lt hone)

/-- With two free cells, the number that is added to the heap pointer is written into the second
one, which is the cell to be reserved.  What was there is lost. -/
theorem Pending.bump_lost (h : Pending P m ⟨Code.bumpHeap ++ k, S, H, fp, ra, tm, o⟩ w)
    (hr : m.sp = m.hp + 2) :
    ∃ m', Path P m m' ∧ Holds P m' ⟨k, S, H ++ [Int64.ofInt 1], fp, ra, tm, o⟩ := by
  obtain ⟨hm₁, hstep⟩ := h.toHolds.step_lhp
  obtain ⟨hpath, hm₂⟩ := h.toHolds.push_settled (by simp [Line.width]) hm₁ hstep
    (by show m.hp < m.sp; omega)
  obtain ⟨m₃, hm₃, hsp, hhp, -, hstep'⟩ := hm₂.step_push
  have hsp' : m₃.sp = m.sp - 1 := hsp
  have hhp' : m₃.hp = m.hp := hhp
  obtain ⟨hpath', hm₄⟩ := hm₂.push_settled (by simp [Line.width]) hm₃ hstep' (by omega)
  have hlt : m₃.hp < m₃.memory.size := by
    have := hm₃.size_eq
    have := hm₃.sp_eq
    simp only [length_cons] at this
    omega
  have hpending : (m₃.pushed (Int64.ofInt 1)).memory[m₃.hp]? = some (Int64.ofInt 1) := by
    show (m₃.memory.setIfInBounds (m₃.sp - 1) (Int64.ofInt 1))[m₃.hp]? = _
    rw [show m₃.sp - 1 = m₃.hp by omega, Array.getElem?_setIfInBounds_self_of_lt hlt]
  obtain ⟨hstep₂, hm₅⟩ := hm₄.step_op rfl (by decide)
  obtain ⟨m₆, hadd, hm₆⟩ := Pending.add { hm₅ with pending := hpending }
  rw [Word.ofNat_add_ofInt (b := H.length + 1) (by simp)] at hm₆
  obtain ⟨m₇, hstep₃, hm₇⟩ := hm₆.shp
  have hstep₂' : Machine.step P.code (m₃.pushed (Int64.ofInt 1)) = .running m₆ := by
    rw [hstep₂, hadd, Machine.settle]
  refine ⟨m₇, (hpath.trans hpath').trans (.head ⟨?_, hstep₂'⟩ (.single ⟨?_, hstep₃⟩)), hm₇⟩
  · exact hm₄.ready rfl (by simp [Line.width])
  · exact hm₆.ready rfl (by simp [Line.width])

/-- What is in a cell that held a word before it was reserved with so many free cells. -/
def reserved (free : Nat) (w : Word) : Word := if free = 2 then Int64.ofInt 1 else w

theorem reserved_of_lt (hr : 2 < r) : reserved r w = w := if_neg (by omega)

/-- With two free cells or more, a cell is reserved. -/
theorem Pending.bump_exact (h : Pending P m ⟨Code.bumpHeap ++ k, S, H, fp, ra, tm, o⟩ w)
    (hroom : m.sp = m.hp + r) (hr : 2 ≤ r) :
    ∃ m', Path P m m' ∧ Holds P m' ⟨k, S, H ++ [reserved r w], fp, ra, tm, o⟩ := by
  by_cases htwo : r = 2
  · subst htwo
    exact h.bump_lost hroom
  · rw [reserved_of_lt (by omega)]
    have hsize : m.sp + S.length = P.size := h.sp_eq
    have hheap : m.hp = H.length := h.hp_eq
    obtain ⟨m', hpath, hend⟩ := h.bump (by omega)
    cases hend with
    | inl hspent => exact absurd hspent.2 (by omega)
    | inr hm' => exact ⟨m', hpath, hm'⟩

/-- A word is moved into the first free cell of the heap, where a cell is free. -/
theorem Holds.store_exact (h : Holds P m ⟨.op .lhp :: .op .sw :: k, w :: S, H, fp, ra, tm, o⟩)
    (hr : m.hp < m.sp) :
    ∃ m', Path P m m' ∧ Pending P m' ⟨k, S, H, fp, ra, tm, o⟩ w ∧ m'.hp = m.hp ∧
      m'.sp = m.sp + 1 := by
  cases h.store with
  | inl hspent => exact absurd hspent.1 (by omega)
  | inr hstored =>
    obtain ⟨m', hpath, hm', -⟩ := hstored
    have hsp : m.sp + (w :: S).length = P.size := h.sp_eq
    have hsp' : m'.sp + S.length = P.size := hm'.sp_eq
    rw [length_cons] at hsp
    exact ⟨m', hpath, hm', hm'.hp_eq.trans h.hp_eq.symm, by omega⟩

/-! ### Blocks -/

/-- A word goes from the stack to the heap if there is a free cell.  If it is the only one, another
word arrives there. -/
theorem Becomes.allocate (hfree : (w :: S).length + H.length + r = P.size) (hr : 1 ≤ r) :
    Becomes P ⟨Code.allocate ++ k, w :: S, H, fp, ra, tm, o⟩
      ⟨k, S, H ++ [reserved (r + 1) w], fp, ra, tm, o⟩ := by
  intro m hm
  have hroom := hm.sp_eq_add hfree
  obtain ⟨m₁, hpath, hm₁, hhp, hsp⟩ := hm.store_exact (by omega)
  obtain ⟨m₂, hpath', hm₂⟩ := hm₁.bump_exact (r := r + 1) (by omega) (by omega)
  exact ⟨m₂, hpath.trans hpath', hm₂⟩

theorem Overflows.allocate (hfree : P.size ≤ (w :: S).length + H.length) :
    Overflows P ⟨Code.allocate ++ k, w :: S, H, fp, ra, tm, o⟩ := by
  intro m hm
  obtain ⟨-, hstep⟩ := hm.step_lhp
  have hsize : m.sp + (w :: S).length = P.size := hm.sp_eq
  have hheap : m.hp = H.length := hm.hp_eq
  exact .of_push hstep (by show m.sp ≤ m.hp; omega)

/-- Words go from the stack to the heap. -/
theorem Becomes.allocates {n : Nat} {ws : List Word} (hn : ws.length = n)
    (hfree : (ws ++ S).length + H.length + r = P.size) (hr : 1 ≤ r) :
    Becomes P ⟨(List.replicate n Code.allocate).flatten ++ k, ws ++ S, H, fp, ra, tm, o⟩
      ⟨k, S, H ++ ws.map (reserved (r + 1)), fp, ra, tm, o⟩ := by
  subst hn
  induction ws generalizing H with
  | nil =>
    intro m hm
    refine ⟨m, .refl, ?_⟩
    rw [map_nil, append_nil]
    exact hm
  | cons w ws ih =>
    rw [cons_append, length_cons] at hfree
    rw [length_cons, replicate_succ, flatten_cons, append_assoc, map_cons,
      append_cons]
    refine (Becomes.allocate ?_ hr).trans (ih ?_)
    · simpa only [append_eq, length_cons] using hfree
    · have hheap : (H ++ [reserved (r + 1) w]).length = H.length + 1 := length_append
      omega

/-- The slot of a class in the global frame is loaded if there are two free cells. -/
theorem Becomes.loadGlobal {b : Nat} (hfree : S.length + H.length + r = P.size) (hr : 2 ≤ r)
    (hglobal : H[0]? = some g) (hb : g + Int64.ofInt off = Int64.ofNat b)
    (hcell : Cell P.size H S b w) :
    Becomes P ⟨Code.loadGlobal off ++ k, S, H, fp, ra, tm, o⟩ ⟨k, w :: S, H, fp, ra, tm, o⟩ := by
  apply (Becomes.push (by omega)).trans
  apply (Becomes.of_effect (by decide) (.lw (a := 0) (.inl hglobal))).trans
  apply (Becomes.push (by rw [length_cons]; omega)).trans
  apply (Becomes.of_effect (by decide) .add).trans
  rw [hb]
  exact .of_effect (by decide) (.lw hcell)

theorem Overflows.loadGlobal (hfree : S.length + H.length + r = P.size) (hr : r ≤ 1)
    (hglobal : H[0]? = some g) : Overflows P ⟨Code.loadGlobal off ++ k, S, H, fp, ra, tm, o⟩ := by
  by_cases hzero : r = 0
  · exact .push (by omega)
  · apply (Becomes.push (by omega)).overflows
    apply (Becomes.of_effect (by decide) (.lw (a := 0) (.inl hglobal))).overflows
    exact .push (by rw [length_cons]; omega)

/-- The end of the construction: the dispatch table is stored, the address of the object is left,
and the cell is reserved. -/
theorem Holds.finish_exact (h : Holds P m
      ⟨.op .lhp :: .op .sw :: .op .lhp :: (Code.bumpHeap ++ k), w :: S, H, fp, ra, tm, o⟩)
    (hr : m.hp < m.sp) :
    ∃ m', Path P m m' ∧ m'.hp = m.hp ∧ m'.sp = m.sp ∧
      Pending P m' ⟨Code.bumpHeap ++ k, Int64.ofNat H.length :: S, H, fp, ra, tm, o⟩ w := by
  obtain ⟨m₁, hpath, hm₁, hhp, hsp⟩ := h.store_exact hr
  obtain ⟨hstep, hm₂⟩ := hm₁.lhp (by omega)
  refine ⟨_, hpath.tail ⟨hm₁.ready rfl (by simp [Line.width]), hstep⟩, hhp, ?_, hm₂⟩
  show m₁.sp - 1 = m.sp
  omega

theorem Becomes.finish (hfree : (w :: S).length + H.length + r = P.size) (hr : 2 ≤ r) :
    Becomes P ⟨.op .lhp :: .op .sw :: .op .lhp :: (Code.bumpHeap ++ k), w :: S, H, fp, ra, tm, o⟩
      ⟨k, Int64.ofNat H.length :: S, H ++ [reserved r w], fp, ra, tm, o⟩ := by
  intro m hm
  have hroom := hm.sp_eq_add hfree
  obtain ⟨m₁, hpath, hhp, hsp, hm₁⟩ := hm.finish_exact (by omega)
  obtain ⟨m₂, hpath', hm₂⟩ := hm₁.bump_exact (r := r) (by omega) hr
  exact ⟨m₂, hpath.trans hpath', hm₂⟩

theorem Overflows.finish (hfree : (w :: S).length + H.length + 1 = P.size) :
    Overflows P
      ⟨.op .lhp :: .op .sw :: .op .lhp :: (Code.bumpHeap ++ k), w :: S, H, fp, ra, tm, o⟩ := by
  intro m hm
  have hroom := hm.sp_eq_add hfree
  obtain ⟨m₁, hpath, hhp, hsp, hm₁⟩ := hm.finish_exact (by omega)
  exact .of_path hpath (hm₁.bump_overflows (by omega))

section Construct

variable {n b : Nat} {off : Int} {g : Word} {ws : List Word}

theorem getElem?_zero_append (hglobal : H[0]? = some g) : (H ++ ws)[0]? = some g := by
  have hlt : 0 < H.length := (List.getElem?_eq_some_iff.mp hglobal).1
  rw [List.getElem?_append_left hlt, hglobal]

/-- An object is built if there are three free cells.  If there are no more, the address of its
dispatch table is lost. -/
theorem Becomes.construct (hn : ws.length = n)
    (hfree : (ws ++ S).length + H.length + (r + 1) = P.size) (hr : 2 ≤ r) (hglobal : H[0]? = some g)
    (hb : g + Int64.ofInt off = Int64.ofNat b) (hcell : Cell P.size H S b w) :
    Becomes P ⟨Code.construct n off ++ k, ws ++ S, H, fp, ra, tm, o⟩
      ⟨k, Int64.ofNat (H.length + n) :: S, H ++ ws ++ [reserved r w], fp, ra, tm, o⟩ := by
  have hfields : ws.map (reserved (r + 1 + 1)) = ws :=
    (map_congr_left fun w _ => reserved_of_lt (w := w) (by omega)).trans (map_id ws)
  have hheap : (H ++ ws).length = H.length + n := by rw [length_append, hn]
  simp only [Code.construct, append_assoc _ _ k, append_assoc _ _ (Code.bumpHeap ++ k),
    append_assoc (List.flatten _)]
  apply (Becomes.allocates hn hfree (Nat.le_add_left 1 r)).trans
  rw [hfields, ← hheap]
  rw [length_append] at hfree
  refine (Becomes.loadGlobal (r := r + 1) (by omega) (by omega) (getElem?_zero_append hglobal) hb
    (hcell.mono (prefix_append _ _) suffix_rfl)).trans (.finish ?_ hr)
  rw [length_cons]
  omega

/-- With fewer than three free cells, no object is built. -/
theorem Overflows.construct (hn : ws.length = n) (hfree : (ws ++ S).length + H.length + r = P.size)
    (hr : r < 3) (hglobal : H[0]? = some g) (hb : g + Int64.ofInt off = Int64.ofNat b)
    (hcell : Cell P.size H S b w) :
    Overflows P ⟨Code.construct n off ++ k, ws ++ S, H, fp, ra, tm, o⟩ := by
  simp only [Code.construct, append_assoc _ _ k, append_assoc _ _ (Code.bumpHeap ++ k),
    append_assoc (List.flatten _)]
  by_cases hzero : r = 0
  · -- Without a free cell, the first word that is pushed is too much.
    subst hn hzero
    cases ws with
    | nil => exact .loadGlobal hfree (Nat.zero_le 1) hglobal
    | cons a ws =>
      rw [length_cons, replicate_succ, flatten_cons, append_assoc]
      exact .allocate (Nat.le_of_eq hfree.symm)
  apply (Becomes.allocates hn hfree (by omega)).overflows
  generalize hstored : ws.map (reserved (r + 1)) = ws'
  have hheap : (H ++ ws').length = H.length + ws.length := by
    rw [length_append, ← hstored, length_map]
  have hglobal' : (H ++ ws')[0]? = some g := getElem?_zero_append hglobal
  rw [length_append] at hfree
  by_cases hone : r = 1
  · exact .loadGlobal (r := 1) (by omega) (Nat.le_refl 1) hglobal'
  · refine (Becomes.loadGlobal (r := 2) (by omega) (Nat.le_refl 2) hglobal' hb
      (hcell.mono (prefix_append _ _) suffix_rfl)).overflows (.finish ?_)
    rw [length_cons]
    omega

end Construct

/-! ### Machines -/

/-- What a machine has become once an object is built of arguments that were on top of its stack,
the last one topmost: the address of the object is there instead of them, the object starts with
the first free cell, with its fields from the last to the first and then a word for its class, and
all other cells that were in use are as they were. -/
structure Machine.Built (m : Machine) (args : List Word) (table : Word) (m' : Machine) : Prop where
  sp_eq : m'.sp + 1 = m.sp + args.length
  top_eq : m'.memory[m'.sp]? = some (Int64.ofNat (m.hp + args.length))
  hp_eq : m'.hp = m.hp + args.length + 1
  table_eq : m'.memory[m.hp + args.length]? = some table
  field_eq : ∀ (i : Nat) (w : Word), args[i]? = some w →
    m'.memory[m.hp + args.length - (i + 1)]? = some w
  heap_kept : ∀ a < m.hp, m'.memory[a]? = m.memory[a]?
  stack_kept : ∀ a, m.sp + args.length ≤ a → m'.memory[a]? = m.memory[a]?
  fp_kept : m'.fp = m.fp

/-- The object of a configuration is that of the machine. -/
theorem Holds.built {m' : Machine} {table : Word} (hsize : m.memory.size = P.size)
    (hhp : m.hp ≤ m.sp) (hsp : m.sp + args.length ≤ P.size)
    (h : Holds P m' ⟨k, Int64.ofNat (m.hp + args.length) ::
        m.memory.toList.drop (m.sp + args.length),
      m.memory.toList.take m.hp ++ args.reverse ++ [table], m.fp.toBitVec.toNat, ra, tm, o⟩) :
    m.Built args table m' := by
  have hheap : (m.memory.toList.take m.hp).length = m.hp := by
    rw [length_take, Array.length_toList]
    omega
  constructor
  case sp_eq =>
    have hstack := h.sp_eq
    simp only [length_cons, length_drop, Array.length_toList] at hstack
    omega
  case top_eq => exact h.top rfl
  case hp_eq =>
    rw [h.hp_eq, length_append, length_append, hheap, length_reverse,
      length_singleton]
  case table_eq =>
    apply h.heap_eq
    rw [List.getElem?_append_right (by simp [hheap]), length_append, hheap, length_reverse,
      Nat.sub_self, List.getElem?_cons_zero]
  case field_eq =>
    intro i w hi
    have hlt : i < args.length := (List.getElem?_eq_some_iff.mp hi).1
    apply h.heap_eq
    rw [append_assoc, List.getElem?_append_right (by omega), hheap,
      List.getElem?_append_left (by rw [length_reverse]; omega),
      List.getElem?_reverse (by omega), ← hi]
    congr 1
    omega
  case heap_kept =>
    intro a ha
    refine h.memory_eq_of_prefix ?_ ha (by omega)
    rw [append_assoc]
    exact prefix_append _ _
  case stack_kept =>
    intro a ha
    exact h.memory_eq_of_suffix hsize (suffix_cons _ _) ha
  case fp_kept => rw [h.fp_eq, ← Word.eq_ofNat]

/-- The words on top of the stack, from the last to the first, and what is below them. -/
theorem drop_sp_eq (hargs : ∀ (i : Nat) (w : Word), args[i]? = some w →
      m.memory[m.sp + args.length - (i + 1)]? = some w) :
    m.memory.toList.drop m.sp = args.reverse ++ m.memory.toList.drop (m.sp + args.length) := by
  apply ext_getElem?
  intro i
  rw [List.getElem?_drop, Array.getElem?_toList]
  by_cases hi : i < args.length
  · have hlt : args.length - 1 - i < args.length := by omega
    have harg := hargs _ _ (List.getElem?_eq_getElem hlt)
    rw [List.getElem?_append_left (by rw [length_reverse]; exact hi), List.getElem?_reverse hi,
      List.getElem?_eq_getElem hlt, ← harg]
    congr 1
    omega
  · rw [List.getElem?_append_right (by rw [length_reverse]; omega), length_reverse,
      List.getElem?_drop, Array.getElem?_toList]
    congr 1
    omega

/-- Building an object, wherever the code for it stands and whatever the machine contains: there is
an overflow of the stack if fewer than three cells are free, and otherwise the object is built.
Its class is told by the address of its dispatch table, except where just three cells are free:
there the number 1 is in its place. -/
theorem construct_to_last_cell {lines k : List Line} {code : Array Word} {m : Machine} {n b : Nat}
    {off : Int} {args : List Word} {g d : Word} (hcode : code.toList = Line.linked lines)
    (hmarks : (Line.marks lines).Nodup) (hextent : Line.extent lines < Word.limit)
    (hsize : m.memory.size < Word.limit) (hk : Code.construct n off ++ k <:+ lines)
    (hip : m.ip = Int64.ofNat (Line.place lines (Code.construct n off ++ k)))
    (hpos : 1 ≤ m.hp) (hhp : m.hp ≤ m.sp) (hn : args.length = n)
    (hargs : ∀ (i : Nat) (w : Word), args[i]? = some w → m.memory[m.sp + n - (i + 1)]? = some w)
    (hglobal : m.memory[0]? = some g) (hslot : g + Int64.ofInt off = Int64.ofNat b)
    (habove : m.sp + n ≤ b) (hclass : m.memory[b]? = some d) :
    (m.sp < m.hp + 3 → ∃ t m', m.run code t = .failed .stackOverflow m') ∧
    (m.hp + 3 ≤ m.sp → ∃ t m', m.run code t = .running m' ∧
      m'.ip = Int64.ofNat (Line.place lines k) ∧
      m.Built args (if m.sp = m.hp + 3 then 1 else d) m') := by
  let P : Setup := ⟨lines, code, m.memory.size, 0, 0, hcode, hmarks, hextent, hsize⟩
  have hb : b < m.memory.size := (Array.getElem?_eq_some_iff.mp hclass).1
  subst hn
  have hm : Holds P m _ := .of_machine hk hip rfl hhp (by show m.sp ≤ m.memory.size; omega)
  rw [drop_sp_eq hargs] at hm
  generalize hheap : m.memory.toList.take m.hp = H at hm
  have hlength : H.length = m.hp := hm.hp_eq.symm
  have hzero : H[0]? = some g := by
    rw [← hheap, List.getElem?_take_of_lt hpos, Array.getElem?_toList, hglobal]
  have hcell : Cell P.size H (m.memory.toList.drop (m.sp + args.length)) b d :=
    .of_drop habove hclass
  have hfree : (args.reverse ++ m.memory.toList.drop (m.sp + args.length)).length + H.length +
      (m.sp - m.hp) = P.size := by
    have hsp := hm.sp_eq
    simp only at hsp
    omega
  constructor
  · intro hr
    obtain ⟨m₁, m₂, hpath, hfail⟩ :=
      Overflows.construct List.length_reverse hfree (by omega) hzero hslot hcell m hm
    obtain ⟨t, ht, -⟩ := hpath.run
    exact ⟨t + 1, m₂, (Machine.run_succ_of_running ht).trans hfail⟩
  · intro hr
    rw [show m.sp - m.hp = m.sp - m.hp - 1 + 1 by omega] at hfree
    obtain ⟨m', hpath, hm'⟩ :=
      Becomes.construct List.length_reverse hfree (by omega) hzero hslot hcell m hm
    obtain ⟨t, ht, -⟩ := hpath.run
    refine ⟨t, m', ht, hm'.ip_eq, ?_⟩
    have hthree : m.sp - m.hp - 1 = 2 ↔ m.sp = m.hp + 3 := by omega
    have hword : reserved (m.sp - m.hp - 1) d = if m.sp = m.hp + 3 then 1 else d := by
      simp only [reserved, hthree]
      rfl
    rw [hlength, ← hheap, hword] at hm'
    exact Holds.built rfl hhp (by show _ ≤ m.memory.size; omega) hm'

/-! ### The last cells -/

/-- The code that builds an object with two fields, and nothing else. -/
def pairCode : List Line := Code.construct 2 (-1) ++ [.op .halt]

/-- A machine with so many free cells, whose heap is only the global frame pointer, and whose stack
is two arguments, the address of a dispatch table and the first cell of the global frame. -/
def beforePair (free : Nat) : Machine :=
  let global := Int64.ofNat (free + 4)
  { memory := (global :: (List.replicate free 0 ++ [30, 20, 77, 0])).toArray
    ip := 0
    sp := free + 1
    fp := global
    ra := 0
    tm := 0
    hp := 1
    current := 0
    printed := [] }

/-- With two free cells there is an overflow, with three the object is built but has lost its class,
and with four it is built. -/
theorem construct_to_last_cell_pair :
    (∃ t m', (beforePair 2).run (Line.linked pairCode).toArray t = .failed .stackOverflow m') ∧
    (∃ t m', (beforePair 3).run (Line.linked pairCode).toArray t = .running m' ∧
      (beforePair 3).Built [20, 30] 1 m') ∧
    ∃ t m', (beforePair 4).run (Line.linked pairCode).toArray t = .running m' ∧
      (beforePair 4).Built [20, 30] 77 m' := by
  have hargs : ∀ free ∈ [2, 3, 4], ∀ (i : Nat) (w : Word), ([20, 30] : List Word)[i]? = some w →
      (beforePair free).memory[(beforePair free).sp + 2 - (i + 1)]? = some w := by
    intro free hfree i w hi
    have hstack : ∀ free ∈ [2, 3, 4], ∀ i < 2,
        (beforePair free).memory[(beforePair free).sp + 2 - (i + 1)]? =
          ([20, 30] : List Word)[i]? := by decide +kernel
    rw [hstack free hfree i (List.getElem?_eq_some_iff.mp hi).1, hi]
  have hmarks : (Line.marks pairCode).Nodup := by decide
  refine ⟨?_, ?_, ?_⟩
  · exact (construct_to_last_cell (m := beforePair 2) (b := 5) rfl hmarks (by decide) (by decide)
      List.suffix_rfl rfl (by decide) (by decide) rfl (hargs 2 (by decide)) rfl (by decide)
      (by decide) rfl).1 (by decide)
  · obtain ⟨t, m', hrun, -, hbuilt⟩ := (construct_to_last_cell (m := beforePair 3) (b := 6) rfl
      hmarks (by decide) (by decide) List.suffix_rfl rfl (by decide) (by decide) rfl
      (hargs 3 (by decide)) rfl (by decide) (by decide) rfl).2 (by decide)
    exact ⟨t, m', hrun, hbuilt⟩
  · obtain ⟨t, m', hrun, -, hbuilt⟩ := (construct_to_last_cell (m := beforePair 4) (b := 7) rfl
      hmarks (by decide) (by decide) List.suffix_rfl rfl (by decide) (by decide) rfl
      (hargs 4 (by decide)) rfl (by decide) (by decide) rfl).2 (by decide)
    exact ⟨t, m', hrun, hbuilt⟩

/-- With three free cells there is no overflow, and still the object is never built with the address
of the dispatch table of its class. -/
theorem construct_loses_table :
    (∀ t f m', (beforePair 3).run (Line.linked pairCode).toArray t ≠ .failed f m') ∧
    ∀ t m', (beforePair 3).run (Line.linked pairCode).toArray t = .running m' →
      ¬ (beforePair 3).Built [20, 30] 77 m' := by
  -- The run halts with the next step after the code of the object.
  obtain ⟨m₁, hhalt⟩ : ∃ m', (beforePair 3).run (Line.linked pairCode).toArray 25 = .halted m' :=
    ⟨_, rfl⟩
  have hbefore : ∀ t < 25, ((beforePair 3).run (Line.linked pairCode).toArray t).running?.any
      (fun m' => !(m'.hp == 4 && m'.memory[3]? == some 77)) = true := by decide +kernel
  constructor
  · intro t f m' hrun
    rcases Nat.lt_or_ge t 25 with hlt | hge
    · have hrunning := hbefore t hlt
      rw [hrun] at hrunning
      cases hrunning
    · rw [Machine.run_of_le hhalt (by simp) hge] at hrun
      cases hrun
  · intro t m' hrun hbuilt
    rcases Nat.lt_or_ge t 25 with hlt | hge
    · have hrunning := hbefore t hlt
      have htable : m'.memory[3]? = some 77 := hbuilt.table_eq
      simp [hrun, Machine.Outcome.running?, show m'.hp = 4 from hbuilt.hp_eq, htable] at hrunning
    · rw [Machine.run_of_le hhalt (by simp) hge] at hrun
      cases hrun

end Foolscap
