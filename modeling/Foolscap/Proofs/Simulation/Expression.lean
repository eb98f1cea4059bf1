import Foolscap.Proofs.Assembly.Emission
import Foolscap.Proofs.Simulation.Sim
import Foolscap.Proofs.Typing.Inversion

/-!
# Expressions in code

The code of a well-typed expression does what its evaluation does, one statement for each form of
expression.
-/

namespace Foolscap

open List Foolscap.Expr

/-! ### Statements -/

/-- The code of an expression does what its evaluation does, wherever scopes and stack belong
together. -/
def ExprSim (W : World) (d height : Nat) (e : Expr) : Prop :=
  ∀ ⦃s : Scopes⦄ ⦃env : Env⦄ ⦃st : Store⦄ ⦃S : List Word⦄ ⦃fp : Nat⦄ ⦃as : List Nat⦄ ⦃t : Ty⦄
    (n : Nat) (k : List Line), W.Framed s env st S (fp :: as) →
    (e.bind s).typeOf W.context.supers = .ok t → height ≤ S.length + d →
    Sim W.toLoaded d height (e.eval W.shapes (invoke W.shapes d) env) st
      ⟨((e.bind s).code n).1 ++ k, S, fp⟩ (fun w st' => W.HasTy st' w t) fun w => ⟨k, w :: S, fp⟩

/-- A jump to a routine does what a call does.  The control link, the arguments and the access link
are on the stack, as the text of the call tells; the value takes their place. -/
def Calls (W : World) (d height : Nat) : Prop :=
  ∀ ⦃R : Resolver⦄ ⦃l : Label⦄ ⦃r : Routine⦄ ⦃known : Env⦄ ⦃args : List Word⦄ ⦃st : Store⦄
    ⦃S : List Word⦄ ⦃fp a : Nat⦄ ⦃as : List Nat⦄ (k : List Line), W.Emitted R l r →
    W.EnvRel st S (a :: as) R.scopes.tables known → Chain W.size (W.heap st) S (a :: as) →
    W.globals <:+ S → W.StoreOK st →
    List.Forall₂ (W.HasTy st) args (r.params.map fun p => p.annotation.ty) →
    Line.passed W.lines k = args.length → height ≤ S.length + d →
    Sim W.toLoaded d height (invoke W.shapes d r known args) st
      ⟨.op .js :: k, W.slot l :: Int64.ofNat a :: (args ++ Int64.ofNat fp :: S), fp⟩
      (fun w st' => W.HasTy st' w r.ret.ty) fun w => ⟨k, w :: S, fp⟩

variable {W : World} {d height : Nat} {s : Scopes} {env : Env} {st : Store} {S : List Word}
  {fp : Nat} {as : List Nat}

theorem eval_grows (e : Expr) (env : Env) : Grows (e.eval W.shapes (invoke W.shapes d) env) :=
  Expr.eval_grows (invoke_grows d) env e

/-! ### Operators -/

variable {l r e : Expr} {k : List Line} {sp : Span} {op : BinaryOp} {name : Text}

/-- Two operands, one after the other. -/
theorem ExprSim.operands (hl : ExprSim W d height l) (hr : ExprSim W d height r) {lt rt : Ty}
    {n n' : Nat} {f : Word → Word → Eval Word} {ok : Word → Store → Prop} {q : Word → Spot}
    (hframed : W.Framed s env st S (fp :: as)) (hlt : (l.bind s).typeOf W.context.supers = .ok lt)
    (hrt : (r.bind s).typeOf W.context.supers = .ok rt) (hh : height ≤ S.length + d)
    (hf : ∀ u v, Grows (f u v))
    (h : ∀ u v st', W.StoreOK st' → W.HasTy st' u lt → W.HasTy st' v rt →
      Sim W.toLoaded d height (f u v) st' ⟨k, v :: u :: S, fp⟩ ok q) :
    Sim W.toLoaded d height (do
        let u ← l.eval W.shapes (invoke W.shapes d) env
        let v ← r.eval W.shapes (invoke W.shapes d) env
        f u v) st
      ⟨((l.bind s).code n).1 ++ (((r.bind s).code n').1 ++ k), S, fp⟩ ok q := by
  refine .bind (eval_grows l env) (fun u => .bind (eval_grows r env) (hf u))
    (hl n _ hframed hlt hh) fun u st₁ hext hst₁ hu => ?_
  have hframed₁ := (hframed.mono hext hst₁ suffix_rfl).push u
  refine .bind (eval_grows r env) (hf u)
    (hr n' k hframed₁ hrt (by simp only [length_cons]; omega)) fun v st₂ hext' hst₂ hv => ?_
  exact h u v st₂ hst₂ (hu.mono hext') hv

/-- Arithmetic wraps around in both, and a division by zero ends both. -/
theorem ExprSim.arithmetic (hop : op = .plus ∨ op = .minus ∨ op = .times ∨ op = .div)
    (hl : ExprSim W d height l) (hr : ExprSim W d height r) :
    ExprSim W d height (.binary sp op l r) := by
  intro s env st S fp as t n k hframed ht hh
  rw [Expr.bind] at ht ⊢
  obtain ⟨lt, rt, hlt, hrt, ht⟩ := typeOf_binary ht
  have hne : op ≠ .and ∧ op ≠ .or ∧ op ≠ .greaterEqual := by
    rcases hop with rfl | rfl | rfl | rfl <;> decide
  obtain rfl : t = .int := by
    rcases hop with rfl | rfl | rfl | rfl <;> exact Typing.arithmetic_eq_ok ht
  rw [code_binary hne, Expr.eval, append_assoc, append_assoc]
  · refine hl.operands hr hframed hlt hrt hh op.eval_grows fun u v st' hst' _ _ => ?_
    rcases hop with rfl | rfl | rfl | rfl
    · exact .pure hst' trivial fun ra tm => .add (.refl ⟨ra, tm, rfl⟩)
    · exact .pure hst' trivial fun ra tm => .sub (.refl ⟨ra, tm, rfl⟩)
    · exact .pure hst' trivial fun ra tm => .mult (.refl ⟨ra, tm, rfl⟩)
    · rw [BinaryOp.eval]
      split
      · next hv =>
        subst hv
        exact .throw fun ra tm => .refl .divisionByZero
      · next hv => exact .pure hst' trivial fun ra tm => .div hv (.refl ⟨ra, tm, rfl⟩)
  · exact hne.1
  · exact hne.2.1
  · exact hne.2.2

theorem hasTy_ofBool (b : Bool) : W.HasTy st (Word.ofBool b) .bool := by
  cases b with
  | false => exact .inl rfl
  | true => exact .inr rfl

/-- A comparison branches to where 1 is pushed; the operands of one of them are in the other
order. -/
theorem ExprSim.comparison (hop : op = .equal ∨ op = .lessEqual ∨ op = .greaterEqual)
    (hl : ExprSim W d height l) (hr : ExprSim W d height r) :
    ExprSim W d height (.binary sp op l r) := by
  intro s env st S fp as t n k hframed ht hh
  rw [Expr.bind] at ht ⊢
  obtain ⟨lt, rt, hlt, hrt, ht⟩ := typeOf_binary ht
  obtain rfl : t = .bool := by
    rcases hop with rfl | rfl | rfl <;> exact Typing.comparison_eq_ok ht
  have hbool : ∀ {b : Branch} {u v : Word} {st' : Store} {m : Nat}, b ≠ .always →
      W.StoreOK st' → Sim W.toLoaded d height
        (Pure.pure (Word.ofBool (decide (b.test u v)))) st'
        ⟨Code.branchToBool b m ++ k, v :: u :: S, fp⟩ (fun w st' => W.HasTy st' w .bool)
        fun w => ⟨k, w :: S, fp⟩ :=
    fun hb hst' => .pure hst' (hasTy_ofBool _) fun ra tm => .branchToBool hb (.refl ⟨ra, tm, rfl⟩)
  rcases hop with rfl | rfl | rfl
  · rw [code_binary (by decide), Expr.eval, append_assoc, append_assoc]
    · exact hl.operands hr hframed hlt hrt hh (BinaryOp.eval_grows _) fun u v st' hst' _ _ =>
        hbool (b := .equal) (by decide) hst'
    all_goals simp
  · rw [code_binary (by decide), Expr.eval, append_assoc, append_assoc]
    · exact hl.operands hr hframed hlt hrt hh (BinaryOp.eval_grows _) fun u v st' hst' _ _ =>
        hbool (b := .lessEqual) (by decide) hst'
    all_goals simp
  · rw [code_greaterEqual, Expr.eval, append_assoc, append_assoc]
    exact hr.operands hl hframed hrt hlt hh (fun v u => BinaryOp.eval_grows _ u v)
      fun v u st' hst' _ _ => hbool (b := .lessEqual) (by decide) hst'

/-- The right operand is evaluated only if the left one does not decide. -/
theorem ExprSim.shortCircuit {decisive : Int} (hd : decisive = 0 ∨ decisive = 1)
    (hl : ExprSim W d height l) (hr : ExprSim W d height r) {lt rt : Ty} {n m m' : Nat}
    (hframed : W.Framed s env st S (fp :: as)) (hlt : (l.bind s).typeOf W.context.supers = .ok lt)
    (hrt : (r.bind s).typeOf W.context.supers = .ok rt) (hh : height ≤ S.length + d)
    (hrb : W.context.supers.isSubtype rt .bool) :
    Sim W.toLoaded d height (do
        let u ← l.eval W.shapes (invoke W.shapes d) env
        if u = Int64.ofInt decisive then return Int64.ofInt decisive
        else r.eval W.shapes (invoke W.shapes d) env) st
      ⟨Code.shortCircuit decisive n ((l.bind s).code m).1 ((r.bind s).code m').1 ++ k, S, fp⟩
      (fun w st' => W.HasTy st' w .bool) fun w => ⟨k, w :: S, fp⟩ := by
  simp only [Code.shortCircuit, append_assoc, cons_append, nil_append]
  refine .bind (eval_grows l env) (fun u => .ite (.pure _) (eval_grows r env))
    (hl m _ hframed hlt hh) fun u st₁ hext hst₁ hu => ?_
  have hdone : W.HasTy st₁ (Int64.ofInt decisive) .bool := by
    rcases hd with rfl | rfl
    · exact .inl rfl
    · exact .inr rfl
  split
  · next heq =>
    refine .pure hst₁ hdone fun ra tm => .push (.branch_taken (by decide) heq
      (.trans ⟨[_, _, _, _], rfl⟩ (suffix_append _ _)) (.push (.mark (.refl ⟨ra, tm, rfl⟩))))
  · next hne =>
    refine .before (fun ra tm => .push (.branch_not_taken (by decide) hne (.refl ⟨ra, tm, rfl⟩)))
      (.after (hr m' _ (hframed.mono hext hst₁ suffix_rfl) hrt hh) fun v st₂ hst₂ hv => ?_)
    have hv := hv.subtype hrb
    refine ⟨hv, fun ra tm => .push ?_⟩
    by_cases heq : v = Int64.ofInt decisive
    · subst heq
      exact .branch_taken (by decide) rfl ⟨[_, _], rfl⟩ (.push (.mark (.refl ⟨ra, tm, rfl⟩)))
    · have hother : v = Int64.ofInt (1 - decisive) := by
        rcases hd with rfl | rfl
        · exact hv.resolve_left heq
        · exact hv.resolve_right heq
      subst hother
      exact .branch_not_taken (by decide) heq
        (.push (.branch_always ⟨[_, _], rfl⟩ (.refl ⟨ra, tm, rfl⟩)))

/-- The second operand is evaluated only if the first one does not decide. -/
theorem ExprSim.logical (hop : op = .and ∨ op = .or) (hl : ExprSim W d height l)
    (hr : ExprSim W d height r) : ExprSim W d height (.binary sp op l r) := by
  intro s env st S fp as t n k hframed ht hh
  rw [Expr.bind] at ht ⊢
  obtain ⟨lt, rt, hlt, hrt, ht⟩ := typeOf_binary ht
  rcases hop with rfl | rfl
  · obtain ⟨rfl, -, hrb⟩ := Typing.logical_eq_ok ht
    rw [code_and, Expr.eval]
    exact ExprSim.shortCircuit (.inl rfl) hl hr hframed hlt hrt hh hrb
  · obtain ⟨rfl, -, hrb⟩ := Typing.logical_eq_ok ht
    rw [code_or, Expr.eval]
    exact ExprSim.shortCircuit (.inr rfl) hl hr hframed hlt hrt hh hrb

theorem ExprSim.not (he : ExprSim W d height e) : ExprSim W d height (.not sp e) := by
  intro s env st S fp as t n k hframed ht hh
  rw [Expr.bind] at ht ⊢
  obtain ⟨rfl, et, het⟩ := typeOf_not ht
  rw [code_not, Expr.eval, append_assoc]
  refine .bind (eval_grows e env) (fun _ => .pure _) (he n _ hframed het hh)
    fun u st₁ _ hst₁ _ => ?_
  exact .pure hst₁ (hasTy_ofBool _) fun ra tm =>
    .push (.branchToBool (b := .equal) (by decide) (.refl ⟨ra, tm, rfl⟩))

/-- A condition: only the code of the branch that is taken is run. -/
theorem ExprSim.cond {c y : Expr} (hc : ExprSim W d height c) (hy : ExprSim W d height y)
    (he : ExprSim W d height e) : ExprSim W d height (.cond sp c y e) := by
  intro s env st S fp as t n k hframed ht hh
  rw [Expr.bind] at ht ⊢
  obtain ⟨ct, yt, et, hct, hyt, het, -, hjoin⟩ := typeOf_cond ht
  have hup : ∀ {w st'}, (W.HasTy st' w yt ∨ W.HasTy st' w et) → W.HasTy st' w t := by
    intro w st' hw
    rcases Hierarchy.join?_eq_some hjoin with ⟨rfl, hsub⟩ | ⟨rfl, hsub⟩
    · exact hw.elim (·.subtype hsub) id
    · exact hw.elim id (·.subtype hsub)
  rw [code_cond, Expr.eval]
  simp only [append_assoc, cons_append, nil_append]
  refine .bind (eval_grows c env) (fun _ => .ite (eval_grows y env) (eval_grows e env))
    (hc _ _ hframed hct hh) fun u st₁ hext hst₁ _ => ?_
  have hframed₁ := hframed.mono hext hst₁ suffix_rfl
  split
  · next hu =>
    refine .before (fun ra tm => .push (.branch_taken (by decide) hu
      (.trans ⟨[_], rfl⟩ (suffix_append _ _)) (.refl ⟨ra, tm, rfl⟩)))
      (.after (hy _ _ hframed₁ hyt hh) fun w st₂ _ hw => ⟨hup (.inl hw), fun ra tm => ?_⟩)
    exact .mark (.refl ⟨ra, tm, rfl⟩)
  · next hu =>
    refine .before (fun ra tm => .push (.branch_not_taken (by decide) hu (.refl ⟨ra, tm, rfl⟩)))
      (.after (he _ _ hframed₁ het hh) fun w st₂ _ hw => ⟨hup (.inr hw), fun ra tm => ?_⟩)
    exact .branch_always ((suffix_append _ _).trans (suffix_cons _ _))
      (.refl ⟨ra, tm, rfl⟩)

theorem ExprSim.print (he : ExprSim W d height e) : ExprSim W d height (.print sp e) := by
  intro s env st S fp as t n k hframed ht hh
  rw [Expr.bind] at ht ⊢
  rw [Expr.typeOf] at ht
  rw [code_print, Expr.eval, append_assoc]
  refine .bind (eval_grows e env) (fun w => .bind (fun s => s.extends_print w) fun _ => .pure _)
    (he n _ hframed ht hh) fun w st₁ _ hst₁ hw => ?_
  have heval : (do modify fun s => s.print w; return w : Eval Word) st₁ = .ok w (st₁.print w) := rfl
  refine .of_ok heval fun _ ra tm => .print (.refl ?_)
  exact ⟨⟨ra, tm, rfl⟩, hst₁.print w, hw.mono (st₁.extends_print w)⟩

/-! ### Constants and variables -/

theorem Follows.constant {c : Int} {w : Word} {t : Ty} (hst : W.StoreOK st)
    (hw : Int64.ofInt c = w) (ht : W.HasTy st w t) :
    Sim W.toLoaded d height (Pure.pure w) st ⟨[.push c] ++ k, S, fp⟩
      (fun w st' => W.HasTy st' w t) fun w => ⟨k, w :: S, fp⟩ := by
  subst hw
  exact .pure hst ht fun ra tm => .push (.refl ⟨ra, tm, rfl⟩)

theorem ExprSim.int {w : Word} : ExprSim W d height (.int sp w) := by
  intro s env st S fp as t n k hframed ht _
  rw [Expr.bind] at ht ⊢
  rw [Expr.typeOf] at ht
  cases ht
  rw [Expr.code, Expr.eval]
  exact .constant hframed.store w.ofInt_toInt trivial

theorem ExprSim.bool {b : Bool} : ExprSim W d height (.bool sp b) := by
  intro s env st S fp as t n k hframed ht _
  rw [Expr.bind] at ht ⊢
  rw [Expr.typeOf] at ht
  cases ht
  rw [Expr.code, Expr.eval]
  exact .constant hframed.store (by cases b <;> rfl) (hasTy_ofBool b)

theorem ExprSim.null : ExprSim W d height (.null sp) := by
  intro s env st S fp as t n k hframed ht _
  rw [Expr.bind] at ht ⊢
  rw [Expr.typeOf] at ht
  cases ht
  rw [Expr.code, Expr.eval]
  exact .constant hframed.store (by decide) rfl

theorem getElem?_of_drop_eq_cons {a : Nat} {frames rest : List Nat} {i : Nat}
    (h : frames.drop i = a :: rest) : frames[i]? = some a := by
  have := congrArg (·[0]?) h
  simpa using this

/-- The entry of a name leads to what the name stands for. -/
theorem Loaded.Framed.bound {L : Loaded} {frames : List Nat} (h : L.Framed s env st S frames)
    {u : Use} (hu : s.use? name = some u) (hk : u.entry.kind ≠ .cls) :
    ∃ b, env.get? name = some b ∧ L.Bound st S (frames.drop u.hops) u.entry name b :=
  h.env name _ _ (h.site.use?_eq_some hu) hk

/-- The value of a name of a value type is loaded. -/
theorem Loaded.Framed.value {L : Loaded} (h : L.Framed s env st S (fp :: as)) {u : Use}
    (hu : s.use? name = some u)
    (hk : u.entry.kind ≠ .fn ∧ u.entry.kind ≠ .method ∧ u.entry.kind ≠ .cls) :
    ∃ w, env.get? name = some (.value w) ∧ L.HasTy st w u.entry.ty ∧
      ∀ {S' : List Word} {k : List Line} {ra tm : Word} {Q : Config → Prop}, S <:+ S' →
        Runs L.toSetup d ⟨k, w :: S', L.heap st, fp, ra, tm, st.printed⟩ Q →
        Runs L.toSetup d ⟨Code.load u ++ k, S', L.heap st, fp, ra, tm, st.printed⟩ Q := by
  obtain ⟨b, hb, hbound⟩ := h.bound hu hk.2.2
  generalize hframes : (fp :: as).drop u.hops = frames at hbound
  cases hbound with
  | value _ hoff hcell hty =>
    refine ⟨_, hb, hty, fun hS hQ => ?_⟩
    exact .load (h.chain.mono prefix_rfl hS) (getElem?_of_drop_eq_cons hframes) hoff
      (hcell.mono prefix_rfl hS) hQ
  | method hkind => exact absurd hkind hk.2.1
  | function _ he => exact absurd (congrArg Entry.kind he) hk.1

theorem ExprSim.id {use : Option Use} : ExprSim W d height (.id sp name use) := by
  intro s env st S fp as t n k hframed ht _
  rw [Expr.bind] at ht ⊢
  obtain ⟨u, hu, h₁, h₂, h₃, rfl⟩ := typeOf_id ht
  obtain ⟨w, hw, hty, hload⟩ := hframed.value (d := d) hu ⟨h₁, h₂, h₃⟩
  rw [hu, Expr.code, Expr.eval, hw]
  exact .pure hframed.store hty fun ra tm => hload suffix_rfl (.refl ⟨ra, tm, rfl⟩)

end Foolscap
