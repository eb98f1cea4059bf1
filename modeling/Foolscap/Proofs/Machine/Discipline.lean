import Foolscap.Proofs.Machine.Walk

/-!
# The discipline of stack and heap

Whatever the values are that an expression works on, its code leaves one word on the stack and
nothing else has changed there, nor in the heap below its old end, nor in the frame pointer.  All
that is needed is that calls go to routines which take as many arguments as are passed.

## Design Notes

A walk through an expression takes more steps than one through a routine that is called in it.  So
routines are dealt with by induction on the number of steps, and expressions by induction on their
form.
-/

namespace Foolscap

open List

/-- Lines that fill cells are told by their place. -/
theorem Line.eq_of_place {ls k k' : List Line} {x x' : Line} (h : x :: k <:+ ls)
    (h' : x' :: k' <:+ ls) (hx : x.width ≠ 0) (hx' : x'.width ≠ 0)
    (hplace : place ls (x :: k) = place ls (x' :: k')) : x :: k = x' :: k' := by
  have hextent := place_add_extent h
  have hextent' := place_add_extent h'
  -- Of two tails, the longer one fills more cells.
  have hlonger : ∀ {y : Line} {c c' : List Line}, c <:+ y :: c' → y.width ≠ 0 →
      extent c = extent (y :: c') → c = y :: c' := by
    intro y c c' hc hy heq
    rcases suffix_cons_iff.mp hc with hc | ⟨above, rfl⟩
    · exact hc
    · rw [extent_cons, extent_append] at heq
      omega
  rcases suffix_or_suffix_of_suffix h h' with hs | hs
  · exact hlonger hs hx' (by omega)
  · exact (hlonger hs hx (by omega)).symm

/-- A walk through the code of an expression comes to the lines after it with one more word on the
stack, with the same frame and with a heap that may have grown. -/
def ExprKeeps (P : Setup) (N : Nat) (e : Expr) : Prop :=
  ∀ ⦃T Q : Machine → Prop⦄ ⦃S H : List Word⦄ ⦃fp : Nat⦄ (n : Nat) (k : List Line),
    (∀ w, Resumes P T N Q k (w :: S) H fp) → Resumes P T N Q ((e.code n).1 ++ k) S H fp

/-- A routine is about to jump back to where it was called from.  It leaves one word in the place of
the control link and all above it, the frame of the caller, and a heap that may have grown. -/
def Returned (P : Setup) (S H : List Word) (fp : Nat) (ra : Word) (m : Machine) : Prop :=
  ∃ k w H' ra' tm o, H <+: H' ∧ Holds P m ⟨.op .js :: k, ra :: w :: S, H', fp, ra', tm, o⟩

/-- Walks through routines with the arguments that they take come to where the routines jump
back. -/
def Serves (P : Setup) (N : Nat) : Prop :=
  ∀ ⦃l : Label⦄ ⦃count : Nat⦄, Line.Takes P.lines l count → ∃ body, .mark l :: body <:+ P.lines ∧
    ∀ ⦃args S H : List Word⦄ ⦃link ra tm : Word⦄ ⦃fp fp' : Nat⦄ ⦃o : List Word⦄,
      args.length = count →
      Brings P (fun m => m.turn P.code = .returns) N (Returned P S H fp ra)
        ⟨body, link :: (args ++ Int64.ofNat fp :: S), H, fp', ra, tm, o⟩

variable {P : Setup} {T Q : Machine → Prop} {N : Nat} {k : List Line} {S H : List Word}
  {fp : Nat} {ra tm u v w : Word} {o : List Word}

namespace Brings

/-! ### Calls -/

/-- The lines ahead may be taken to be part of the program. -/
theorem of_suffix {c : Config} (hclear : Clear P T c.code)
    (h : c.code <:+ P.lines → Brings P T N Q c) : Brings P T N Q c :=
  ⟨hclear, fun m hm => (h hm.code_suffix).2 m hm⟩

theorem callFunction {off : Int}
    (h : ∀ v, Brings P T N Q ⟨.op .js :: k, v :: w :: S, H, fp, ra, w, o⟩) :
    Brings P T N Q ⟨Code.callFunction off ++ k, w :: S, H, fp, ra, tm, o⟩ :=
  .stm (.ltm (.ltm (offset h)))

theorem dispatch {slot : Int}
    (h : ∀ v, Brings P T N Q ⟨.op .js :: k, v :: w :: S, H, fp, ra, w, o⟩) :
    Brings P T N Q ⟨Code.dispatch slot ++ k, w :: S, H, fp, ra, tm, o⟩ :=
  .stm (.ltm (.ltm (.lw fun _ => offset h)))

/-- A call keeps stack, heap and frame if shorter walks through its routine do. -/
theorem call (hserves : ∀ i < N, Serves P i) (hload : .op .lw :: .op .js :: k <:+ P.lines)
    {args : List Word} (hpassed : Line.passed P.lines k = args.length)
    (h : ∀ w, Resumes P T N Q k (w :: S) H fp) :
    Brings P T N Q
      ⟨.op .js :: k, v :: u :: (args ++ Int64.ofNat fp :: S), H, fp, ra, tm, o⟩ := by
  have hclear := (h 0).clear
  have hk : k <:+ P.lines := (suffix_cons _ _).trans ((suffix_cons _ _).trans hload)
  refine ⟨hclear.mono (suffix_cons _ _), fun m hm n hn m' haiming huntil => ?_⟩
  have hcalls := hm.turn_calls rfl hload
  cases huntil with
  | here hT =>
    refine absurd hT (hclear m _ k suffix_rfl hm.code_suffix (by simp [Line.width]) hm.ip_eq ?_)
    rw [hcalls]
    simp
  | next _ hstays =>
    rw [hcalls] at hstays
    cases hstays
  | @call _ i j _ m₁ m₂ m₃ _ _ _ hstep callee hback rest =>
    -- The call goes to a routine that takes as many arguments as there are on the stack.
    obtain ⟨k', l, hk', hip, htop, htakes⟩ := haiming 0 (Nat.succ_pos _) m rfl hcalls
    have hplace := Word.ofNat_inj (P.place_lt _) (P.place_lt _) (hm.ip_eq.symm.trans hip)
    obtain rfl : k = k' := (List.cons.inj (Line.eq_of_place hm.code_suffix hk'
      (by simp [Line.width]) (by simp [Line.width]) hplace)).2
    obtain ⟨body, hbody, hbrings⟩ := hserves i (by omega) htakes
    have hv : v = Int64.ofNat (Line.place P.lines body) := by
      rw [← Line.address_eq_place P.marks_nodup hbody]
      exact Option.some.inj ((hm.top rfl).symm.trans htop)
    rw [hv] at hm
    obtain ⟨m₁', hstep', hm₁⟩ := hm.js ((suffix_cons _ _).trans hbody)
    obtain rfl : m₁' = m₁ := Machine.Outcome.running.inj (hstep'.symm.trans hstep)
    have haiming₁ := haiming.of_step hstep
    obtain ⟨k₂, w, H', ra', tm', o', hH, hm₂⟩ := (hbrings hpassed.symm).2 _ hm₁ i (Nat.le_refl i) m₂
      (haiming₁.mono (by omega)) callee
    -- It comes back to the line after the call.
    obtain ⟨m₃', hback', hm₃⟩ := hm₂.js hk
    obtain rfl : m₃' = m₃ := Machine.Outcome.running.inj (hback'.symm.trans hback)
    exact (h w H' _ tm' o' hH).2 _ hm₃ j (by omega) m'
      ((haiming₁.of_run callee.run).of_step hback) rest

end Brings

/-! ### Arguments -/

/-- Arguments one after the other: each one leaves its word on the stack. -/
theorem Resumes.codeArgs {es : List Expr} (hes : ∀ e ∈ es, ExprKeeps P N e) (n : Nat)
    (h : ∀ ws : List Word, ws.length = es.length → Resumes P T N Q k (ws ++ S) H fp) :
    Resumes P T N Q ((Foolscap.codeArgs es n).1 ++ k) S H fp := by
  induction es generalizing n S with
  | nil =>
    rw [Foolscap.codeArgs]
    exact h [] rfl
  | cons e es ih =>
    rw [Foolscap.codeArgs]
    dsimp only
    rw [append_assoc]
    refine hes e mem_cons_self n _ fun w => ?_
    refine ih (forall_mem_cons.mp hes).2 _ fun ws hws => ?_
    rw [append_cons]
    exact h (ws ++ [w]) (by simp [hws])

theorem Resumes.codeArgsLastFirst {es : List Expr} (hes : ∀ e ∈ es, ExprKeeps P N e) (n : Nat)
    (h : ∀ ws : List Word, ws.length = es.length → Resumes P T N Q k (ws ++ S) H fp) :
    Resumes P T N Q ((Foolscap.codeArgsLastFirst es n).1 ++ k) S H fp := by
  induction es generalizing k with
  | nil =>
    rw [Foolscap.codeArgsLastFirst]
    exact h [] rfl
  | cons e es ih =>
    rw [Foolscap.codeArgsLastFirst]
    dsimp only
    rw [append_assoc]
    refine ih (forall_mem_cons.mp hes).2 fun ws hws => ?_
    exact hes e mem_cons_self _ k fun w => h (w :: ws) (by simp [hws])

/-! ### Expressions -/

namespace ExprKeeps

variable {l r c y e : Expr} {sp : Span}

theorem operands (hl : ExprKeeps P N l) (hr : ExprKeeps P N r) (n n' : Nat)
    (h : ∀ u v, Resumes P T N Q k (v :: u :: S) H fp) :
    Resumes P T N Q ((l.code n).1 ++ ((r.code n').1 ++ k)) S H fp :=
  hl n _ fun u => hr n' k fun v => h u v

/-- An operator that pops two words and pushes one.  The others leave out an operand or compare the
other way round. -/
theorem operate {op : BinaryOp} (hop : op ≠ .and ∧ op ≠ .or ∧ op ≠ .greaterEqual)
    (hl : ExprKeeps P N l) (hr : ExprKeeps P N r) : ExprKeeps P N (.binary sp op l r) := by
  intro T Q S H fp n k h
  rw [Expr.code_binary hop, append_assoc, append_assoc]
  refine operands hl hr _ _ fun u v H' ra tm o hH => ?_
  have h := fun w => h w H' ra tm o hH
  cases op with
  | plus => exact .add (h _)
  | minus => exact .sub (h _)
  | times => exact .mult (h _)
  | div => exact .div (h _)
  | equal => exact .branchToBool (b := .equal) (by decide) h
  | lessEqual => exact .branchToBool (b := .lessEqual) (by decide) h
  | greaterEqual => exact absurd rfl hop.2.2
  | and => exact absurd rfl hop.1
  | or => exact absurd rfl hop.2.1

theorem greaterEqual (hl : ExprKeeps P N l) (hr : ExprKeeps P N r) :
    ExprKeeps P N (.binary sp .greaterEqual l r) := by
  intro T Q S H fp n k h
  rw [Expr.code_greaterEqual, append_assoc, append_assoc]
  refine operands hr hl _ _ fun v u H' ra tm o hH => ?_
  exact .branchToBool (b := .lessEqual) (by decide) fun w => h w H' ra tm o hH

theorem shortCircuit (hl : ExprKeeps P N l) (hr : ExprKeeps P N r) {decisive : Int} (n i j : Nat)
    (h : ∀ w, Resumes P T N Q k (w :: S) H fp) :
    Resumes P T N Q (Code.shortCircuit decisive n (l.code i).1 (r.code j).1 ++ k) S H fp := by
  simp only [Code.shortCircuit, append_assoc, cons_append, nil_append]
  refine hl i _ fun u H' ra tm o hH => .push (.branch (by decide)
    (.trans ⟨[_, _, _, _], rfl⟩ (suffix_append _ _)) (.push (.mark (h _ H' ra tm o hH)))
    (hr j _ (fun v H' ra tm o hH => .push ?_) H' ra tm o hH))
  -- The right operand is tested, too, and leaves one word either way.
  exact .branch (by decide) ⟨[_, _], rfl⟩ (.push (.mark (h _ H' ra tm o hH)))
    (.push (.branch_always ⟨[_, _], rfl⟩ (h _ H' ra tm o hH)))

theorem logical {op : BinaryOp} (hop : op = .and ∨ op = .or) (hl : ExprKeeps P N l)
    (hr : ExprKeeps P N r) : ExprKeeps P N (.binary sp op l r) := by
  intro T Q S H fp n k h
  rcases hop with rfl | rfl
  · rw [Expr.code_and]
    exact shortCircuit hl hr n _ _ h
  · rw [Expr.code_or]
    exact shortCircuit hl hr n _ _ h

theorem not (he : ExprKeeps P N e) : ExprKeeps P N (.not sp e) := by
  intro T Q S H fp n k h
  rw [Expr.code_not, append_assoc]
  refine he n _ fun u H' ra tm o hH => ?_
  exact .push (.branchToBool (b := .equal) (by decide) fun w => h w H' ra tm o hH)

theorem cond (hc : ExprKeeps P N c) (hy : ExprKeeps P N y) (he : ExprKeeps P N e) :
    ExprKeeps P N (.cond sp c y e) := by
  intro T Q S H fp n k h
  rw [Expr.code_cond]
  simp only [append_assoc, cons_append, nil_append]
  refine hc _ _ fun u H' ra tm o hH => .push (.branch (by decide)
    (.trans ⟨[_], rfl⟩ (suffix_append _ _)) (hy _ _ (fun w => ?_) H' ra tm o hH)
    (he _ _ (fun w => ?_) H' ra tm o hH))
  · exact fun H' ra tm o hH => .mark (h w H' ra tm o hH)
  · exact fun H' ra tm o hH => .branch_always
      ((suffix_append _ _).trans (suffix_cons _ _)) (h w H' ra tm o hH)

theorem print (he : ExprKeeps P N e) : ExprKeeps P N (.print sp e) := by
  intro T Q S H fp n k h
  rw [Expr.code_print, append_assoc]
  exact he n _ fun w H' ra tm o hH => .print (h w H' ra tm _ hH)

theorem constant {v : Int} (hcode : ∀ n, (e.code n).1 = [.push v]) : ExprKeeps P N e := by
  intro T Q S H fp n k h H' ra tm o hH
  rw [hcode]
  exact .push (h _ H' ra tm o hH)

variable {name : Text} {u : Use} {es : List Expr}

theorem id : ExprKeeps P N (.id sp name (some u)) := by
  intro T Q S H fp n k h H' ra tm o hH
  rw [Expr.code]
  exact .load fun v => h v H' ra tm o hH

theorem new {entry : Entry} (hes : ∀ e ∈ es, ExprKeeps P N e) :
    ExprKeeps P N (.new sp name es (some entry)) := by
  intro T Q S H fp n k h
  rw [Expr.code_new, append_assoc]
  refine Resumes.codeArgs hes n fun ws hws H' ra tm o hH => ?_
  exact .construct hws fun v => (h v).mono hH

/-- The control link, the arguments and the jump of a call. -/
theorem calling (hserves : ∀ i < N, Serves P i) (hes : ∀ e ∈ es, ExprKeeps P N e)
    {jump : List Line} {n : Nat} (hpassed : Line.passed P.lines k = es.length)
    (hcode : .op .lfp :: ((codeArgsLastFirst es n).1 ++ (jump ++ k)) <:+ P.lines)
    (hload : .op .lw :: .op .js :: k <:+ jump ++ k)
    (hjump : ∀ ⦃S H : List Word⦄ ⦃ra tm : Word⦄ ⦃o : List Word⦄,
      (∀ v w tm, Brings P T N Q ⟨.op .js :: k, v :: w :: S, H, fp, ra, tm, o⟩) →
      Brings P T N Q ⟨jump ++ k, S, H, fp, ra, tm, o⟩) (h : ∀ w, Resumes P T N Q k (w :: S) H fp) :
    Resumes P T N Q (.op .lfp :: ((codeArgsLastFirst es n).1 ++ (jump ++ k))) S H fp := by
  intro H' ra tm o hH
  refine .lfp (Resumes.codeArgsLastFirst hes n (fun ws hws H'' ra tm o hH => ?_) H' ra tm o hH)
  have hload : .op .lw :: .op .js :: k <:+ P.lines :=
    (hload.trans (suffix_append _ _)).trans ((suffix_cons _ _).trans hcode)
  exact hjump fun v w tm => .call hserves hload (by rw [hpassed, hws]) fun w => (h w).mono hH

theorem call (hserves : ∀ i < N, Serves P i) (hgap : ∀ e ∈ es, e.gap? = none)
    (hes : ∀ e ∈ es, ExprKeeps P N e) : ExprKeeps P N (.call sp name es (some u)) := by
  intro T Q S H fp n k h H' ra tm o hH
  refine .of_suffix ((h 0).clear.mono (suffix_append _ _)) fun hcode => ?_
  have hpassed := Expr.passed_call hcode hgap
  rw [Expr.code_call, cons_append, append_assoc] at hcode ⊢
  refine calling hserves hes hpassed hcode ?_ (fun S H ra tm o hjs => ?_) h H' ra tm o hH
  · rw [append_assoc]
    split
    · exact .trans ⟨[_, _, _, _, _, _], rfl⟩ (suffix_append _ _)
    · exact .trans ⟨[_, _, _, _, _], rfl⟩ (suffix_append _ _)
  · rw [append_assoc]
    split
    · exact .frame fun w => .dispatch fun v => hjs v w w
    · exact .frame fun w => .callFunction fun v => hjs v w w

/-- A call of a method finds its routine in the dispatch table of the object; which one that is
does not matter here. -/
theorem send (hserves : ∀ i < N, Serves P i) {receiver method : Text} {t : Entry}
    (hgap : ∀ e ∈ es, e.gap? = none) (hes : ∀ e ∈ es, ExprKeeps P N e) :
    ExprKeeps P N (.send sp receiver method es (some u) (some t)) := by
  intro T Q S H fp n k h H' ra tm o hH
  refine .of_suffix ((h 0).clear.mono (suffix_append _ _)) fun hcode => ?_
  have hpassed := Expr.passed_send hcode hgap
  rw [Expr.code_send, cons_append, append_assoc] at hcode ⊢
  refine calling hserves hes hpassed hcode ?_ (fun S H ra tm o hjs => ?_) h H' ra tm o hH
  · rw [append_assoc]
    exact .trans ⟨[_, _, _, _, _, _], rfl⟩ (suffix_append _ _)
  · rw [append_assoc]
    exact .load fun w => .dispatch fun v => hjs v w w

end ExprKeeps

mutual

/-- Every expression keeps stack, heap and frame if the routines that it calls do. -/
theorem Expr.keeps (hserves : ∀ i < N, Serves P i) : ∀ e : Expr, e.gap? = none → ExprKeeps P N e
  | .missing, h => by
    rw [Expr.gap?] at h
    cases h
  | .binary _ op l r, h => by
    obtain ⟨hl, hr⟩ := Expr.gap?_binary.mp h
    have hl := Expr.keeps hserves l hl
    have hr := Expr.keeps hserves r hr
    cases op with
    | plus | minus | times | div | equal | lessEqual => exact .operate (by decide) hl hr
    | greaterEqual => exact .greaterEqual hl hr
    | and | or => exact .logical (by simp) hl hr
  | .not _ e, h => by
    rw [Expr.gap?] at h
    exact .not (Expr.keeps hserves e h)
  | .cond _ c y e, h => by
    obtain ⟨hc, he, hy⟩ := Expr.gap?_cond.mp h
    exact .cond (Expr.keeps hserves c hc) (Expr.keeps hserves y hy) (Expr.keeps hserves e he)
  | .print _ e, h => by
    rw [Expr.gap?] at h
    exact .print (Expr.keeps hserves e h)
  | .int _ _, _ | .bool _ _, _ | .null _, _ => .constant fun _ => by rw [Expr.code]
  | .id _ _ use, h => by
    obtain ⟨u, rfl⟩ := Expr.gap?_id.mp h
    exact .id
  | .call _ _ es use, h => by
    obtain ⟨hes, u, rfl⟩ := Expr.gap?_call.mp h
    exact .call hserves hes (allExprs_keep hserves es hes)
  | .new _ _ es entry, h => by
    obtain ⟨hes, e, rfl⟩ := Expr.gap?_new.mp h
    exact .new (allExprs_keep hserves es hes)
  | .send _ _ _ es use target, h => by
    obtain ⟨hes, ⟨u, rfl⟩, t, rfl⟩ := Expr.gap?_send.mp h
    exact .send hserves hes (allExprs_keep hserves es hes)

theorem allExprs_keep (hserves : ∀ i < N, Serves P i) : ∀ es : List Expr,
    (∀ e ∈ es, e.gap? = none) → ∀ e ∈ es, ExprKeeps P N e
  | [], _, _, he => absurd he not_mem_nil
  | e :: es, h, e', he => (mem_cons.mp he).elim
      (fun heq => heq ▸ Expr.keeps hserves e (h e mem_cons_self))
      (allExprs_keep hserves es (forall_mem_cons.mp h).2 e')

end

/-! ### Routines -/

/-- Every declaration leaves one word. -/
theorem Resumes.codeDecls (hserves : ∀ i < N, Serves P i) {ds : List Decl}
    (hds : ∀ d ∈ ds, d.Pushes) (g : Emitter)
    (h : ∀ ws : List Word, ws.length = ds.length → Resumes P T N Q k (ws ++ S) H fp) :
    Resumes P T N Q ((Foolscap.codeDecls g ds).1 ++ k) S H fp := by
  induction ds generalizing g S with
  | nil =>
    rw [Foolscap.codeDecls]
    exact h [] rfl
  | cons d ds ih =>
    rw [codeDecls_cons, append_assoc]
    have hrest : ∀ w,
        Resumes P T N Q ((Foolscap.codeDecls (d.code g).2 ds).1 ++ k) (w :: S) H fp := by
      intro w
      refine ih (forall_mem_cons.mp hds).2 _ fun ws hws => ?_
      rw [append_cons]
      exact h (ws ++ [w]) (by simp [hws])
    have hpushes := hds d mem_cons_self
    cases d with
    | var v =>
      rw [Decl.code] at hrest ⊢
      exact Expr.keeps hserves v.value hpushes _ _ hrest
    | fn r =>
      rw [Decl.code] at hrest ⊢
      exact fun H' ra tm o hH => .pushLabel (hrest _ H' ra tm o hH)
    | cls c => exact hpushes.elim

/-- Walks through routines come to where the routines jump back. -/
theorem serves (P : Setup) (N : Nat) : Serves P N := by
  induction N using Nat.strong_induction_on with
  | _ N hserves =>
    rintro l count ⟨ds, g, b, n, k, hds, hb, hcode⟩
    have hreturn := (Code.routine_suffix _ _ _ _ _).trans hcode
    simp only [Code.routine, append_assoc, cons_append, nil_append] at hcode
    -- The routines that are called inside take fewer steps, which is the induction hypothesis.
    refine ⟨_, hcode, fun args S H link ra tm fp fp' o hargs => .cfp (.lra ?_)⟩
    refine Resumes.codeDecls hserves hds g (fun ws hws => ?_) H ra tm o prefix_rfl
    refine Expr.keeps hserves b hb n _ fun w H' ra' tm' o' hH => ?_
    -- The value is kept aside while the frame is taken off the stack, down to the control link.
    refine .stm (.pops hws (.sra (.pop (.pops hargs (.sfp (.ltm (.lra ?_)))))))
    refine .of_stop (fun m x k' _ _ _ _ hturn => hturn) (fun m hm => hm.turn_returns rfl hreturn)
      fun m hm => ?_
    exact ⟨k, w, H', ra, w, o', hH, hm⟩

/-! ### Whole expressions -/

/-- No line before some others has their place. -/
theorem Clear.of_place : Clear P (fun m => m.ip = Int64.ofNat (Line.place P.lines k)) k := by
  intro m x k' hk' hx hwidth hip _ hm
  have hplace := Word.ofNat_inj (P.place_lt _) (P.place_lt _) (hip.symm.trans hm)
  have hcons := Line.place_cons hx
  have hle : Line.place P.lines k' ≤ Line.place P.lines k := by
    obtain ⟨above, rfl⟩ := hk'
    rw [Line.place, Line.place, Line.extent_append]
    omega
  omega

/-- What is left of a stack, a heap and a frame after an expression: they are kept, but for one more
word on the stack and for more words behind the end of the heap. -/
def Kept (P : Setup) (k : List Line) (S H : List Word) (fp : Nat) (m : Machine) : Prop :=
  ∃ w H' ra tm o, H <+: H' ∧ Holds P m ⟨k, w :: S, H', fp, ra, tm, o⟩

/-- A walk through the code of an expression keeps stack, heap and frame. -/
theorem Expr.kept_of_until {e : Expr} (he : e.gap? = none) {n j : Nat} {m m' : Machine}
    (hm : Holds P m ⟨(e.code n).1 ++ k, S, H, fp, ra, tm, o⟩) (haiming : m.Aiming P j)
    (huntil : Machine.Until P.code (fun m => m.ip = Int64.ofNat (Line.place P.lines k)) j m m') :
    Kept P k S H fp m' := by
  have hkeeps : ExprKeeps P j e := Expr.keeps (fun i _ => serves P i) e he
  have hend : ∀ w, Resumes P _ j (Kept P k S H fp) k (w :: S) H fp := fun w H' ra tm o hH =>
    .of_stop .of_place (fun _ hm => hm.ip_eq) fun _ hm => ⟨w, H', ra, tm, o, hH, hm⟩
  exact (hkeeps n k hend H ra tm o prefix_rfl).2 m hm j (Nat.le_refl j) m' haiming huntil

end Foolscap
