import Mathlib.Data.List.Chain
import Foolscap.Proofs.Evaluation
import Foolscap.Proofs.Machine.Heap

/-!
# Blocks of code

What the pieces of code that expressions and declarations are put together from do to a
configuration.
-/

namespace Foolscap

open List

variable {P : Setup} {d : Nat} {Q : Config → Prop} {k : List Line} {S H : List Word}
  {fp : Nat} {ra tm u v w : Word} {o : List Word}

/-! ### Frames -/

/-- Frames that are reached from one another by access links. -/
abbrev Chain (size : Nat) (heap stack : List Word) : List Nat → Prop :=
  List.IsChain fun a b => Cell size heap stack a (Int64.ofNat b)

variable {as : List Nat} {n a b : Nat} {off : Int} {ws : List Word}

theorem Chain.mono {size : Nat} {heap heap' stack stack' : List Word}
    (h : Chain size heap stack as) (hh : heap <+: heap') (hs : stack <:+ stack') :
    Chain size heap' stack' as :=
  List.IsChain.imp (fun _ _ hc => hc.mono hh hs) h

/-- Access links are followed one by one. -/
theorem Runs.links (hchain : Chain P.size H S (a :: as)) (hb : (a :: as)[n]? = some b)
    (h : Runs P d ⟨k, Int64.ofNat b :: S, H, fp, ra, tm, o⟩ Q) :
    Runs P d ⟨List.replicate n (.op .lw) ++ k, Int64.ofNat a :: S, H, fp, ra, tm, o⟩ Q := by
  induction n generalizing a as with
  | zero =>
    obtain rfl : a = b := by simpa using hb
    exact h
  | succ n ih =>
    cases as with
    | nil => simp at hb
    | cons c as =>
      obtain ⟨hcell, htail⟩ := isChain_cons_cons.mp hchain
      exact .lw hcell (ih htail (by simpa using hb))

/-- The address of the frame some access links away is loaded. -/
theorem Runs.frame (hchain : Chain P.size H S (fp :: as)) (ha : (fp :: as)[n]? = some a)
    (h : Runs P d ⟨k, Int64.ofNat a :: S, H, fp, ra, tm, o⟩ Q) :
    Runs P d ⟨Code.frame n ++ k, S, H, fp, ra, tm, o⟩ Q :=
  .lfp (.links hchain ha h)

/-- The cell at an offset from an address on top of the stack is loaded. -/
theorem Runs.offset (hb : (a : Int) + off = b) (hcell : Cell P.size H S b w)
    (h : Runs P d ⟨k, w :: S, H, fp, ra, tm, o⟩ Q) :
    Runs P d ⟨.push off :: .op .add :: .op .lw :: k, Int64.ofNat a :: S, H, fp, ra, tm, o⟩ Q := by
  refine .push (.add ?_)
  rw [Word.ofNat_add_ofInt hb]
  exact .lw hcell h

/-- The value that a name denotes is loaded. -/
theorem Runs.load {use : Use} (hchain : Chain P.size H S (fp :: as))
    (ha : (fp :: as)[use.hops]? = some a) (hb : (a : Int) + use.entry.offset = b)
    (hcell : Cell P.size H S b w) (h : Runs P d ⟨k, w :: S, H, fp, ra, tm, o⟩ Q) :
    Runs P d ⟨Code.load use ++ k, S, H, fp, ra, tm, o⟩ Q := by
  rw [Code.load, append_assoc]
  exact .frame hchain ha (.offset hb hcell h)

/-- The cell at an offset of the global frame is loaded. -/
theorem Runs.loadGlobal (hglobal : Cell P.size H S 0 (Int64.ofNat a)) (hb : (a : Int) + off = b)
    (hcell : Cell P.size H S b w) (h : Runs P d ⟨k, w :: S, H, fp, ra, tm, o⟩ Q) :
    Runs P d ⟨Code.loadGlobal off ++ k, S, H, fp, ra, tm, o⟩ Q :=
  .push (.lw (a := 0) hglobal (.offset hb hcell h))

/-! ### Operators -/

/-- A comparison leaves the truth value of its test. -/
theorem Runs.branchToBool {b : Branch} (hb : b ≠ .always)
    (h : Runs P d ⟨k, Word.ofBool (decide (b.test u v)) :: S, H, fp, ra, tm, o⟩ Q) :
    Runs P d ⟨Code.branchToBool b n ++ k, v :: u :: S, H, fp, ra, tm, o⟩ Q := by
  by_cases ht : b.test u v
  · rw [decide_eq_true ht] at h
    exact .branch_taken hb ht ⟨[_, _], rfl⟩ (.push (.mark h))
  · rw [decide_eq_false ht] at h
    exact .branch_not_taken hb ht (.push (.branch_always ⟨[_, _], rfl⟩ h))

/-! ### Routines -/

theorem Runs.pops (hn : ws.length = n) (h : Runs P d ⟨k, S, H, fp, ra, tm, o⟩ Q) :
    Runs P d ⟨List.replicate n (.op .pop) ++ k, ws ++ S, H, fp, ra, tm, o⟩ Q := by
  subst hn
  induction ws with
  | nil => exact h
  | cons w ws ih => exact .pop ih

/-- The address on top of the stack is kept, and the routine at an offset from it is loaded. -/
theorem Runs.callFunction (hb : (a : Int) + off = b) (hcell : Cell P.size H S b w)
    (h : Runs P d ⟨.op .js :: k, w :: Int64.ofNat a :: S, H, fp, ra, Int64.ofNat a, o⟩ Q) :
    Runs P d ⟨Code.callFunction off ++ k, Int64.ofNat a :: S, H, fp, ra, tm, o⟩ Q :=
  .stm (.ltm (.ltm (.offset hb (hcell.mono prefix_rfl (suffix_cons _ _)) h)))

/-- The object on top of the stack is doubled. -/
theorem Runs.dispatch_begin {slot : Int}
    (h : Runs P d ⟨.op .lw :: .push slot :: .op .add :: .op .lw :: .op .js :: k, w :: w :: S, H, fp,
      ra, w, o⟩ Q) : Runs P d ⟨Code.dispatch slot ++ k, w :: S, H, fp, ra, tm, o⟩ Q :=
  .stm (.ltm (.ltm h))

/-- The object on top of the stack is kept, and the routine in a slot of its dispatch table is
loaded. -/
theorem Runs.dispatch {p t : Nat} {slot : Int} (htable : H[p]? = some (Int64.ofNat t))
    (hb : (t : Int) + slot = b) (hcell : H[b]? = some w)
    (h : Runs P d ⟨.op .js :: k, w :: Int64.ofNat p :: S, H, fp, ra, Int64.ofNat p, o⟩ Q) :
    Runs P d ⟨Code.dispatch slot ++ k, Int64.ofNat p :: S, H, fp, ra, tm, o⟩ Q :=
  .dispatch_begin (.lw (.inl htable) (.offset hb (.inl hcell) h))

/-- The beginning of a routine sets up its frame. -/
theorem Runs.enter (h : Runs P d ⟨k, ra :: S, H, P.size - S.length, ra, tm, o⟩ Q) :
    Runs P d ⟨.op .cfp :: .op .lra :: k, S, H, fp, ra, tm, o⟩ Q :=
  .cfp (.lra h)

/-- The end of a routine takes its frame away and leaves the result below the return address. -/
theorem Runs.exit {decls params : Nat} {ds ps : List Word} {link r : Word}
    (hd : ds.length = decls) (hp : ps.length = params)
    (h : Runs P d ⟨.op .js :: k, r :: w :: S, H, a, r, w, o⟩ Q) :
    Runs P d ⟨.op .stm :: (List.replicate decls (Line.op .pop) ++ Line.op .sra :: .op .pop ::
        (List.replicate params (Line.op .pop) ++
          Line.op .sfp :: .op .ltm :: .op .lra :: .op .js :: k)),
      w :: (ds ++ r :: link :: (ps ++ Int64.ofNat a :: S)), H, fp, ra, tm, o⟩ Q :=
  .stm (.pops hd (.sra (.pop (.pops hp (.sfp (.ltm (.lra h)))))))

/-! ### Objects and dispatch tables -/

/-- Words go from the stack to the heap, the top one first. -/
theorem Runs.allocates (hn : ws.length = n) (hH : H.length + ws.length ≤ P.heapLimit)
    (h : Runs P d ⟨k, S, H ++ ws, fp, ra, tm, o⟩ Q) :
    Runs P d ⟨(List.replicate n Code.allocate).flatten ++ k, ws ++ S, H, fp, ra, tm, o⟩ Q := by
  subst hn
  induction ws generalizing H with
  | nil => simpa using h
  | cons w ws ih =>
    simp only [length_cons] at hH
    rw [length_cons, replicate_succ, flatten_cons, append_assoc]
    refine .allocate (by omega) (ih ?_ ?_)
    · simp only [length_append, length_singleton]
      omega
    · simpa using h

/-- An object is built of the words on top of the stack and the dispatch table of its class. -/
theorem Runs.construct {g : Nat} (hn : ws.length = n)
    (hH : H.length + (ws.length + 1) ≤ P.heapLimit) (hglobal : Cell P.size H S 0 (Int64.ofNat g))
    (hb : (g : Int) + off = b) (hcell : Cell P.size H S b w)
    (h : Runs P d ⟨k, Int64.ofNat (H.length + ws.length) :: S, H ++ ws ++ [w], fp, ra, tm, o⟩ Q) :
    Runs P d ⟨Code.construct n off ++ k, ws ++ S, H, fp, ra, tm, o⟩ Q := by
  have hmono : H <+: H ++ ws := prefix_append _ _
  simp only [Code.construct, append_assoc]
  refine .allocates hn (by omega) (.loadGlobal (hglobal.mono hmono suffix_rfl) hb
    (hcell.mono hmono suffix_rfl) (.finish ?_ ?_))
  · simp only [length_append]
    omega
  · rw [length_append]
    exact h

/-- Routines are written into the heap one after the other. -/
theorem Runs.writeSlots {table : List Label} (hH : H.length + table.length ≤ P.heapLimit)
    (h : Runs P d ⟨k, S, H ++ table.map fun l => Int64.ofNat (Line.address l P.lines), fp, ra, tm,
      o⟩ Q) :
    Runs P d ⟨((table.map some).flatMap fun s => .pushLabel s :: Code.allocate) ++ k, S, H, fp, ra,
      tm, o⟩ Q := by
  induction table generalizing H with
  | nil => simpa using h
  | cons l table ih =>
    simp only [length_cons] at hH
    simp only [map_cons, flatMap_cons, append_assoc, cons_append]
    refine .pushLabel (.allocate (by omega) (ih ?_ ?_))
    · simp only [length_append, length_singleton]
      omega
    · simpa using h

/-- A dispatch table is written into the heap and its address is left. -/
theorem Runs.writeTable {table : List Label} (hH : H.length + table.length ≤ P.heapLimit)
    (h : Runs P d ⟨k, Int64.ofNat H.length :: S,
      H ++ table.map fun l => Int64.ofNat (Line.address l P.lines), fp, ra, tm, o⟩ Q) :
    Runs P d ⟨Code.writeTable (table.map some) ++ k, S, H, fp, ra, tm, o⟩ Q :=
  .lhp (.writeSlots hH h)

end Foolscap
