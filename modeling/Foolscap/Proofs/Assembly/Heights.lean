import Mathlib.Data.List.Basic
import Foolscap.Proofs.Assembly.Emission

/-!
# Stack heights

How high the stack is before a line can be told from the lines before it: every expression leaves
one word, whatever branches its code takes.  So the text of a call tells how many arguments it
passes.

## Design Notes

The text is read line by line, and branches are not followed.  An unconditional branch jumps over
code that leaves a word in the place of the one left before it, so the line behind such a branch is
reached with one word less.

The frame pointer is pushed for two reasons: as the control link of a call, and as the address that
access links are followed from.  The lines behind it tell which: behind a control link there is an
argument, or the frame pointer again.
-/

namespace Foolscap

open List

/-! ### Code without gaps -/

variable {es : List Expr} {lines k : List Line} {n : Nat}

theorem gapArgs?_eq_none : gapArgs? es = none ↔ ∀ e ∈ es, e.gap? = none := by
  induction es with
  | nil => simp [gapArgs?]
  | cons e es ih => simp [gapArgs?, ih]

theorem gapLastFirst?_eq_none : gapLastFirst? es = none ↔ ∀ e ∈ es, e.gap? = none := by
  induction es with
  | nil => simp [gapLastFirst?]
  | cons e es ih => simp [gapLastFirst?, ih, and_comm]

namespace Expr

variable {sp : Span} {name method : Text} {l r c y e : Expr} {es : List Expr}

theorem gap?_binary {op : BinaryOp} :
    (binary sp op l r).gap? = none ↔ l.gap? = none ∧ r.gap? = none := by
  have hor : ∀ x y : Option Gap, (x <|> y) = none ↔ x = none ∧ y = none := by simp
  cases op with
  | greaterEqual => exact (hor r.gap? l.gap?).trans and_comm
  | _ => exact hor l.gap? r.gap?

theorem gap?_cond :
    (cond sp c y e).gap? = none ↔ c.gap? = none ∧ e.gap? = none ∧ y.gap? = none := by
  show (c.gap? <|> e.gap? <|> y.gap?) = none ↔ _
  simp

variable {use : Option Use}

theorem gap?_id : (id sp name use).gap? = none ↔ ∃ u, use = some u := by
  show (if use.isSome then none else some Gap.unbound) = none ↔ _
  cases use <;> simp

theorem gap?_call :
    (call sp name es use).gap? = none ↔ (∀ e ∈ es, e.gap? = none) ∧ ∃ u, use = some u := by
  show (gapLastFirst? es <|> if use.isSome then none else some Gap.unbound) = none ↔ _
  cases use <;> simp [gapLastFirst?_eq_none]

theorem gap?_new {entry : Option Entry} :
    (new sp name es entry).gap? = none ↔ (∀ e ∈ es, e.gap? = none) ∧ ∃ e, entry = some e := by
  show (gapArgs? es <|> if entry.isSome then none else some Gap.unbound) = none ↔ _
  cases entry <;> simp [gapArgs?_eq_none]

theorem gap?_send {target : Option Entry} :
    (send sp name method es use target).gap? = none ↔
      (∀ e ∈ es, e.gap? = none) ∧ (∃ u, use = some u) ∧ ∃ t, target = some t := by
  show (gapLastFirst? es <|>
    if use.isSome && target.isSome then none else some Gap.unbound) = none ↔ _
  cases use <;> cases target <;> simp [gapLastFirst?_eq_none]

end Expr

/-! ### Heights -/

/-- A height of the stack, and those at which the calls were begun that are not yet made, the latest
first. -/
structure Height where
  words : Int
  links : List Int

namespace Height

/-- Whether lines start as expressions do: with a frame pointer, or with a number that is not about
to be added to an address. -/
def opens : List Line → Bool
  | .op .lfp :: _ => true
  | .push _ :: .op .add :: _ => false
  | .push _ :: _ => true
  | _ => false

/-- The height after a line, given the lines behind it.  A jump to a routine comes back with one
word in the place of the control link and all that was pushed above it. -/
def next (s : Height) (k : List Line) : Line → Height
  | .op .lfp => ⟨s.words + 1, if opens k then s.words :: s.links else s.links⟩
  | .op .js => match s.links with
    | [] => s
    | h :: hs => ⟨h + 1, hs⟩
  | .op o => ⟨s.words + o.stackEffect, s.links⟩
  | .push _ => ⟨s.words + 1, s.links⟩
  | .pushLabel _ => ⟨s.words + 1, s.links⟩
  | .branch .always _ => ⟨s.words - 1, s.links⟩
  | .branch b _ => ⟨s.words + b.opcode.stackEffect, s.links⟩
  | .mark _ => s

/-- The height after some lines, given the lines behind them. -/
def after (k : List Line) : List Line → Height → Height
  | [], s => s
  | x :: c, s => after k c (s.next (c ++ k) x)

/-- The height before the last lines of a text. -/
def before (lines k : List Line) : Height :=
  after k (lines.take (lines.length - k.length)) ⟨0, []⟩

/-- Code that leaves so many words, wherever it stands. -/
def Leaves (n : Int) (c : List Line) : Prop :=
  ∀ k s, after k c s = ⟨s.words + n, s.links⟩

variable {k c c' : List Line} {s : Height} {n n' : Int}

theorem after_append : after k (c ++ c') s = after k c' (after (c' ++ k) c s) := by
  induction c generalizing s with
  | nil => rfl
  | cons x c ih => rw [cons_append, after, after, ih, append_assoc]

theorem before_append (c k : List Line) : before (c ++ k) k = after k c ⟨0, []⟩ := by
  simp [before]

theorem Leaves.append (h : Leaves n c) (h' : Leaves n' c') : Leaves (n + n') (c ++ c') := by
  intro k s
  rw [after_append, h, h', add_assoc]

/-- Code is left with the words of its parts. -/
theorem Leaves.of_append {m : Int} (h : Leaves n c) (h' : Leaves n' c') (hm : n + n' = m) :
    Leaves m (c ++ c') :=
  hm ▸ h.append h'

/-! ### How expressions start -/

theorem head?_append_ne_add (h : opens c) : (c ++ k).head? ≠ some (.op .add) := by
  unfold opens at h
  split at h <;> simp_all

theorem opens_push {v : Int} : opens (.push v :: k) ↔ k.head? ≠ some (.op .add) := by
  cases k with
  | nil => simp [opens]
  | cons y k =>
    by_cases hy : y = .op .add
    · simp [hy, opens]
    · rw [opens]
      · simpa using hy
      · intro tail htail
        exact hy (cons.inj htail).1

/-- Lines that start as an expression does still do so when others follow, unless these add their
only number to an address. -/
theorem opens_append (h : opens c) (hk : k.head? ≠ some (.op .add)) : opens (c ++ k) := by
  cases c with
  | nil => cases h
  | cons x c =>
    cases x with
    | push v =>
      -- What comes after a number tells whether it is an operand of an address.
      refine opens_push.mpr ?_
      cases c with
      | nil => exact hk
      | cons y c =>
        have hy := opens_push.mp h
        exact hy
    | op o =>
      cases o with
      | lfp => rfl
      | _ => cases h
    | pushLabel _ | branch _ _ | mark _ => cases h

theorem head?_codeArgs_ne_add {es : List Expr} (hes : ∀ e ∈ es, ∀ n, opens (e.code n).1)
    (hk : k.head? ≠ some (.op .add)) (n : Nat) :
    ((codeArgs es n).1 ++ k).head? ≠ some (.op .add) := by
  cases es with
  | nil =>
    rw [codeArgs]
    exact hk
  | cons e es =>
    rw [codeArgs]
    dsimp only
    rw [append_assoc]
    exact head?_append_ne_add (hes e mem_cons_self n)

theorem opens_codeArgsLastFirst {es : List Expr} (hes : ∀ e ∈ es, ∀ n, opens (e.code n).1)
    (hk : opens k) (n : Nat) : opens ((codeArgsLastFirst es n).1 ++ k) := by
  induction es generalizing k with
  | nil =>
    rw [codeArgsLastFirst]
    exact hk
  | cons e es ih =>
    rw [codeArgsLastFirst]
    dsimp only
    rw [append_assoc]
    have hkadd : k.head? ≠ some (.op .add) := by
      have := head?_append_ne_add (k := []) hk
      rwa [append_nil] at this
    exact ih (forall_mem_cons.mp hes).2
      (opens_append (hes e mem_cons_self _) hkadd)

end Height

open Foolscap.Height

mutual

/-- The code of an expression starts as expressions do. -/
theorem Expr.opens_code : ∀ e : Expr, e.gap? = none → ∀ n, opens (e.code n).1
  | .missing, h, n => by
    rw [Expr.gap?] at h
    cases h
  | .binary _ op l r, h, n => by
    obtain ⟨hl, hr⟩ := Expr.gap?_binary.mp h
    have hl := l.opens_code hl
    have hr := r.opens_code hr
    cases op with
    | and | or =>
      simp only [Expr.code_and, Expr.code_or, Code.shortCircuit, append_assoc]
      exact opens_append (hl _) (by simp)
    | greaterEqual =>
      rw [Expr.code_greaterEqual]
      exact opens_append (hr _) (head?_append_ne_add (hl _))
    | plus | minus | times | div | equal | lessEqual =>
      rw [Expr.code_binary (by decide)]
      exact opens_append (hl _) (head?_append_ne_add (hr _))
  | .not _ e, h, n => by
    rw [Expr.gap?] at h
    rw [Expr.code_not]
    exact opens_append (e.opens_code h n) (by simp)
  | .cond _ c y e, h, n => by
    obtain ⟨hc, -, -⟩ := Expr.gap?_cond.mp h
    rw [Expr.code_cond]
    exact opens_append (c.opens_code hc _) (by simp)
  | .print _ e, h, n => by
    rw [Expr.gap?] at h
    rw [Expr.code_print]
    exact opens_append (e.opens_code h n) (by simp)
  | .int _ _, _, n | .bool _ _, _, n | .null _, _, n => by rw [Expr.code]; rfl
  | .id _ _ use, h, n => by
    obtain ⟨u, rfl⟩ := Expr.gap?_id.mp h
    rw [Expr.code]
    rfl
  | .call _ _ es use, h, n => by
    obtain ⟨-, u, rfl⟩ := Expr.gap?_call.mp h
    rw [Expr.code_call]
    rfl
  | .new _ _ es entry, h, n => by
    obtain ⟨hes, e, rfl⟩ := Expr.gap?_new.mp h
    rw [Expr.code_new]
    have hopen := allExprs_opens es hes
    cases es with
    | nil =>
      rw [codeArgs]
      rfl
    | cons a es =>
      rw [codeArgs]
      dsimp only
      rw [append_assoc]
      refine opens_append (hopen a mem_cons_self n) (head?_codeArgs_ne_add
        (forall_mem_cons.mp hopen).2 ?_ _)
      simp [Code.construct, Code.allocate, replicate_succ]
  | .send _ _ _ es use target, h, n => by
    obtain ⟨-, ⟨u, rfl⟩, t, rfl⟩ := Expr.gap?_send.mp h
    rw [Expr.code_send]
    rfl

theorem allExprs_opens : ∀ es : List Expr, (∀ e ∈ es, e.gap? = none) →
    ∀ e ∈ es, ∀ n, opens (e.code n).1
  | [], _, _, he => absurd he not_mem_nil
  | e :: es, h, e', he => (mem_cons.mp he).elim
      (fun heq => heq ▸ e.opens_code (h e mem_cons_self))
      (allExprs_opens es (forall_mem_cons.mp h).2 e')

end

/-! ### Blocks -/

namespace Height

variable {k c : List Line} {s : Height} {n : Int}

theorem leaves_links (i : Nat) : Leaves 0 (replicate i (.op .lw)) := by
  intro k s
  induction i with
  | zero => simp [after]
  | succ i ih =>
    rw [replicate_succ, after]
    simpa [next, Opcode.stackEffect] using ih

/-- The frame pointer is no control link where access links are followed from it. -/
theorem Leaves.frame {hops : Nat} (h : Leaves n c) (hc : ∀ k, opens (c ++ k) = false) :
    Leaves (1 + n) (Code.frame hops ++ c) := by
  intro k s
  have hclosed : opens (replicate hops (.op .lw) ++ c ++ k) = false := by
    cases hops with
    | zero => exact hc k
    | succ i => rfl
  rw [Code.frame, cons_append, after, (leaves_links hops).append h, next, hclosed]
  simp [add_assoc]

theorem leaves_load (u : Use) : Leaves 1 (Code.load u) := by
  have hoffset : Leaves 0 [.push u.entry.offset, .op .add, .op .lw] := by
    intro k s
    simp [after, next, Opcode.stackEffect]
  exact hoffset.frame fun k => rfl

/-- The code of the jump of a call: it leaves the access link and the address of the routine, and
jumps. -/
def Jumps (c : List Line) : Prop :=
  ∃ c', c = c' ++ [.op .js] ∧ Leaves 2 c' ∧ ∀ k, opens (c' ++ k)

theorem jumps_function (hops : Nat) (off : Int) :
    Jumps (Code.frame hops ++ Code.callFunction off) := by
  have haim : Leaves 1 [.op .stm, .op .ltm, .op .ltm, .push off, .op .add, .op .lw] := by
    intro k s
    simp [after, next, Opcode.stackEffect]
  exact ⟨Code.frame hops ++ _, by simp [Code.callFunction], haim.frame fun k => rfl, fun k => rfl⟩

theorem leaves_dispatch (slot : Int) :
    Leaves 1 [.op .stm, .op .ltm, .op .ltm, .op .lw, .push slot, .op .add, .op .lw] := by
  intro k s
  simp [after, next, Opcode.stackEffect]

theorem jumps_method (hops : Nat) (slot : Int) : Jumps (Code.frame hops ++ Code.dispatch slot) := by
  exact ⟨Code.frame hops ++ _, by simp [Code.dispatch], (leaves_dispatch slot).frame fun k => rfl,
    fun k => rfl⟩

theorem jumps_send (u : Use) (slot : Int) : Jumps (Code.load u ++ Code.dispatch slot) := by
  have haim := (leaves_load u).append (leaves_dispatch slot)
  exact ⟨_, by simp [Code.dispatch], haim, fun k => rfl⟩

theorem leaves_branchToBool {b : Branch} (hb : b ≠ .always) (i : Nat) :
    Leaves (-1) (Code.branchToBool b i) := by
  intro k s
  cases b with
  | always => exact absurd rfl hb
  | equal | lessEqual =>
    simp [Code.branchToBool, after, next, Branch.opcode, Opcode.stackEffect]
    omega

theorem leaves_operate {op : BinaryOp} (hop : op = .plus ∨ op = .minus ∨ op = .times ∨ op = .div)
    (i : Nat) : Leaves (-1) (Code.operate op i).1 := by
  intro k s
  rcases hop with rfl | rfl | rfl | rfl <;> rfl

theorem leaves_shortCircuit {d : Int} {l r : List Line} (hl : Leaves 1 l) (hr : Leaves 1 r)
    (i : Nat) : Leaves 1 (Code.shortCircuit d i l r) := by
  intro k s
  rw [Code.shortCircuit]
  simp only [after_append, hl _ _, hr _ _]
  simp [after, next, Branch.opcode, Opcode.stackEffect]
  omega

theorem leaves_allocates (i : Nat) : Leaves (-i) (replicate i Code.allocate).flatten := by
  induction i with
  | zero =>
    intro k s
    simp [after]
  | succ i ih =>
    rw [replicate_succ, flatten_cons]
    have hallocate : Leaves (-1) Code.allocate := by
      intro k s
      simp [Code.allocate, Code.bumpHeap, after, next, Opcode.stackEffect]
      omega
    exact hallocate.of_append ih (by push_cast; omega)

theorem leaves_construct (i : Nat) (off : Int) : Leaves (1 - i) (Code.construct i off) := by
  rw [Code.construct, append_assoc, append_assoc]
  refine (leaves_allocates i).of_append ?_ (neg_add_eq_sub (i : Int) 1)
  intro k s
  simp [Code.loadGlobal, Code.bumpHeap, after, next, Opcode.stackEffect]
  omega

variable {es : List Expr}

theorem leaves_codeArgs (hes : ∀ e ∈ es, ∀ n, Leaves 1 (e.code n).1) (n : Nat) :
    Leaves es.length (codeArgs es n).1 := by
  induction es generalizing n with
  | nil =>
    rw [codeArgs]
    intro k s
    simp [after]
  | cons e es ih =>
    rw [codeArgs]
    exact (hes e mem_cons_self n).of_append
      (ih (forall_mem_cons.mp hes).2 _) (by push_cast [length_cons]; omega)

theorem leaves_codeArgsLastFirst (hes : ∀ e ∈ es, ∀ n, Leaves 1 (e.code n).1) (n : Nat) :
    Leaves es.length (codeArgsLastFirst es n).1 := by
  induction es with
  | nil =>
    rw [codeArgsLastFirst]
    intro k s
    simp [after]
  | cons e es ih =>
    rw [codeArgsLastFirst]
    exact (ih (forall_mem_cons.mp hes).2).of_append
      (hes e mem_cons_self _) (by push_cast [length_cons]; omega)

/-- The control link, the arguments, the access link and the address of the routine. -/
theorem after_arguments (hes : ∀ e ∈ es, e.gap? = none)
    (hleaves : ∀ e ∈ es, ∀ n, Leaves 1 (e.code n).1) (hc : Leaves 2 c)
    (hopen : ∀ k, opens (c ++ k)) (n : Nat) :
    after k (.op .lfp :: ((codeArgsLastFirst es n).1 ++ c)) s =
      ⟨s.words + 3 + es.length, s.words :: s.links⟩ := by
  have hlink : opens ((codeArgsLastFirst es n).1 ++ c ++ k) := by
    rw [append_assoc]
    exact opens_codeArgsLastFirst (allExprs_opens es hes) (hopen k) n
  rw [after, (leaves_codeArgsLastFirst hleaves n).append hc, next, if_pos hlink]
  simp only [Height.mk.injEq, and_true]
  omega

theorem leaves_call (hes : ∀ e ∈ es, e.gap? = none)
    (hleaves : ∀ e ∈ es, ∀ n, Leaves 1 (e.code n).1) (hc : Jumps c) (n : Nat) :
    Leaves 1 (.op .lfp :: ((codeArgsLastFirst es n).1 ++ c)) := by
  obtain ⟨c', rfl, hc', hopen⟩ := hc
  intro k s
  rw [← append_assoc, ← cons_append, after_append,
    after_arguments hes hleaves hc' hopen]
  rfl

end Height

mutual

/-- The code of an expression leaves one word. -/
theorem Expr.leaves_code : ∀ e : Expr, e.gap? = none → ∀ n, Leaves 1 (e.code n).1
  | .missing, h, n => by
    rw [Expr.gap?] at h
    cases h
  | .binary _ op l r, h, n => by
    obtain ⟨hl, hr⟩ := Expr.gap?_binary.mp h
    have hl := l.leaves_code hl
    have hr := r.leaves_code hr
    cases op with
    | and =>
      rw [Expr.code_and]
      exact leaves_shortCircuit (hl _) (hr _) n
    | or =>
      rw [Expr.code_or]
      exact leaves_shortCircuit (hl _) (hr _) n
    | greaterEqual =>
      rw [Expr.code_greaterEqual]
      exact (hr _).append ((hl _).append (leaves_branchToBool (by decide) _))
    | equal | lessEqual =>
      rw [Expr.code_binary (by decide)]
      exact (hl _).append ((hr _).append (leaves_branchToBool (by decide) _))
    | plus | minus | times | div =>
      rw [Expr.code_binary (by decide)]
      exact (hl _).append ((hr _).of_append (leaves_operate (by decide) _) rfl)
  | .not _ e, h, n => by
    rw [Expr.gap?] at h
    rw [Expr.code_not]
    exact (e.leaves_code h n).append (Leaves.append (c := [.push 0]) (fun k s => rfl)
      (leaves_branchToBool (by decide) _))
  | .cond _ c y e, h, n => by
    obtain ⟨hc, he, hy⟩ := Expr.gap?_cond.mp h
    have hc := c.leaves_code hc
    have he := e.leaves_code he
    have hy := y.leaves_code hy
    intro k s
    rw [Expr.code_cond]
    -- The jump over the second branch takes back the word that the first one left.
    simp only [after_append, Height.after, hc _ _ _, he _ _ _, hy _ _ _]
    simp [Height.next, Branch.opcode, Opcode.stackEffect]
    omega
  | .print _ e, h, n => by
    rw [Expr.gap?] at h
    rw [Expr.code_print]
    refine (e.leaves_code h n).of_append ?_ (Int.add_zero 1)
    exact fun k s => rfl
  | .int _ _, _, n | .bool _ _, _, n | .null _, _, n => by rw [Expr.code]; exact fun k s => rfl
  | .id _ _ use, h, n => by
    obtain ⟨u, rfl⟩ := Expr.gap?_id.mp h
    rw [Expr.code]
    exact leaves_load u
  | .call _ _ es use, h, n => by
    obtain ⟨hes, u, rfl⟩ := Expr.gap?_call.mp h
    rw [Expr.code_call]
    refine leaves_call hes (allExprs_leave es hes) ?_ n
    split
    · exact jumps_method _ _
    · exact jumps_function _ _
  | .new _ _ es entry, h, n => by
    obtain ⟨hes, e, rfl⟩ := Expr.gap?_new.mp h
    rw [Expr.code_new]
    exact (leaves_codeArgs (allExprs_leave es hes) n).of_append (leaves_construct _ _) (by omega)
  | .send _ _ _ es use target, h, n => by
    obtain ⟨hes, ⟨u, rfl⟩, t, rfl⟩ := Expr.gap?_send.mp h
    rw [Expr.code_send]
    exact leaves_call hes (allExprs_leave es hes) (jumps_send _ _) n

theorem allExprs_leave : ∀ es : List Expr, (∀ e ∈ es, e.gap? = none) →
    ∀ e ∈ es, ∀ n, Leaves 1 (e.code n).1
  | [], _, _, he => absurd he not_mem_nil
  | e :: es, h, e', he => (mem_cons.mp he).elim
      (fun heq => heq ▸ e.leaves_code (h e mem_cons_self))
      (allExprs_leave es (forall_mem_cons.mp h).2 e')

end

/-! ### Arguments -/

/-- How many arguments a call passes, given the lines behind its jump: as many as there are words
between the control link and the access link. -/
def Line.passed (lines k : List Line) : Nat :=
  let s := before lines (.op .js :: k)
  (s.words - 3 - s.links.headD 0).toNat

theorem Height.Jumps.passed {c : List Line} (hc : Jumps c)
    (h : .op .lfp :: ((codeArgsLastFirst es n).1 ++ (c ++ k)) <:+ lines)
    (hes : ∀ e ∈ es, e.gap? = none) : Line.passed lines k = es.length := by
  obtain ⟨c', rfl, hc', hopen⟩ := hc
  obtain ⟨above, rfl⟩ := h
  -- What stands above the call may leave any height, for only the words since the control link
  -- count.
  have hlines : above ++ .op .lfp :: ((codeArgsLastFirst es n).1 ++ (c' ++ [.op .js] ++ k)) =
      (above ++ .op .lfp :: ((codeArgsLastFirst es n).1 ++ c')) ++ .op .js :: k := by simp
  rw [hlines, Line.passed, before_append, after_append,
    after_arguments hes (allExprs_leave es hes) hc' hopen n]
  simp only [headD_cons]
  omega

/-- The lines behind the control link tell how many arguments a call passes: each one leaves one
word. -/
theorem Expr.passed_call {sp : Span} {name : Text} {u : Use}
    (h : ((Expr.call sp name es (some u)).code n).1 ++ k <:+ lines)
    (hes : ∀ e ∈ es, e.gap? = none) : Line.passed lines k = es.length := by
  rw [Expr.code_call, cons_append, append_assoc] at h
  refine Jumps.passed ?_ h hes
  split
  · exact jumps_method _ _
  · exact jumps_function _ _

theorem Expr.passed_send {sp : Span} {receiver method : Text} {u : Use} {t : Entry}
    (h : ((Expr.send sp receiver method es (some u) (some t)).code n).1 ++ k <:+ lines)
    (hes : ∀ e ∈ es, e.gap? = none) : Line.passed lines k = es.length := by
  rw [Expr.code_send, cons_append, append_assoc] at h
  exact (jumps_send u t.offset).passed h hes

/-! ### Routines -/

/-- A declaration that leaves one word: a function, or a variable whose value has no gap. -/
def Decl.Pushes : Decl → Prop
  | .var v => v.value.gap? = none
  | .fn _ => True
  | .cls _ => False

/-- A routine ends with a jump to its return address. -/
theorem Code.routine_suffix (l : Label) (decls params : Nat) (inside k : List Line) :
    .op .lra :: .op .js :: k <:+ Code.routine l decls params inside ++ k :=
  ⟨[Line.mark l, .op .cfp, .op .lra] ++ inside ++ [Line.op .stm] ++
    replicate decls (Line.op .pop) ++ [Line.op .sra, .op .pop] ++
    replicate params (Line.op .pop) ++ [Line.op .sfp, .op .ltm],
    by simp [Code.routine]⟩

/-- A routine of the code takes so many arguments. -/
def Line.Takes (lines : List Line) (l : Label) (count : Nat) : Prop :=
  ∃ (ds : List Decl) (g : Emitter) (b : Expr) (n : Nat) (k : List Line),
    (∀ d ∈ ds, d.Pushes) ∧ b.gap? = none ∧
      Code.routine l ds.length count ((codeDecls g ds).1 ++ (b.code n).1) ++ k <:+ lines

end Foolscap
