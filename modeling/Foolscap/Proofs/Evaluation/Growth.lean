import Foolscap.Proofs.Evaluation

/-!
# Growing stores

Evaluation adds objects to the store and never changes or removes any.
-/

namespace Foolscap

/-! ### Stores -/

/-- The second store has the objects of the first and possibly more behind them, each in the cells
that follow. -/
def Store.Extends (s s' : Store) : Prop :=
  ∃ new, s'.objects = s.objects ++ new ∧
    s'.next = s.next + (new.map fun o => o.2.fields.length + 1).sum

namespace Store.Extends

variable {s s' s'' : Store}

@[simp] theorem refl (s : Store) : s.Extends s := ⟨[], by simp, by simp⟩

theorem trans (h : s.Extends s') (h' : s'.Extends s'') : s.Extends s'' := by
  obtain ⟨new, ho, hn⟩ := h
  obtain ⟨new', ho', hn'⟩ := h'
  refine ⟨new ++ new', by rw [ho', ho, List.append_assoc], ?_⟩
  rw [hn', hn, List.map_append, List.sum_append, Nat.add_assoc]

theorem objects_isPrefix (h : s.Extends s') : s.objects <+: s'.objects := by
  obtain ⟨new, ho, -⟩ := h
  exact ⟨new, ho.symm⟩

theorem next_le (h : s.Extends s') : s.next ≤ s'.next := by
  obtain ⟨new, -, hn⟩ := h
  omega

/-- Objects stay what they are. -/
theorem object?_eq (h : s.Extends s') {w : Word} {o : Object} (ho : s.object? w = some o) :
    s'.object? w = some o := by
  obtain ⟨new, hobj, -⟩ := h
  rw [object?, Option.map_eq_some_iff] at ho ⊢
  obtain ⟨row, hrow, rfl⟩ := ho
  exact ⟨row, by rw [hobj, List.find?_append, hrow]; rfl, rfl⟩

end Store.Extends

theorem Store.extends_make (s : Store) (o : Object) : s.Extends (s.make o) :=
  ⟨[(s.place o, o)], rfl, by simp [make, place, Nat.add_assoc]⟩

theorem Store.extends_print (s : Store) (w : Word) : s.Extends (s.print w) :=
  ⟨[], by simp [print], by simp [print]⟩

/-! ### Computations -/

/-- The store at the end of a computation. -/
def Abort.storeOf {α : Type} : EStateM.Result Abort Store α → Store
  | .ok _ s => s
  | .error _ s => s

/-- A computation that only adds to the store. -/
def Grows {α : Type} (x : Eval α) : Prop := ∀ s : Store, s.Extends (Abort.storeOf (x s))

namespace Grows

variable {α β : Type} {x : Eval α}

theorem ok (h : Grows x) {s s' : Store} {a : α} (hx : x s = .ok a s') : s.Extends s' := by
  have := h s
  rwa [hx] at this

theorem error (h : Grows x) {s s' : Store} {e : Abort} (hx : x s = .error e s') : s.Extends s' := by
  have := h s
  rwa [hx] at this

theorem pure (a : α) : Grows (Pure.pure a) := fun s => .refl s

theorem throw (e : Abort) : Grows (MonadExcept.throw e : Eval α) := fun s => .refl s

theorem bind {f : α → Eval β} (h : Grows x) (hf : ∀ a, Grows (f a)) : Grows (x >>= f) := by
  intro s
  show s.Extends (Abort.storeOf (EStateM.bind x f s))
  unfold EStateM.bind
  cases hx : x s with
  | ok a s' => exact (h.ok hx).trans (hf a s')
  | error e s' => exact h.error hx

theorem ite {p : Prop} [Decidable p] {y : Eval α} (h : Grows x) (h' : Grows y) :
    Grows (if p then x else y) := by
  split
  · exact h
  · exact h'

end Grows

/-! ### Evaluation -/

theorem BinaryOp.eval_grows (op : BinaryOp) (u v : Word) : Grows (op.eval u v) := by
  cases op with
  | div => exact .ite (.throw _) (.pure _)
  | and | or => exact .throw _
  | _ => exact .pure _

variable {shapes : Table ClassShape} {call : Caller}

theorem dispatch_grows (hcall : ∀ r env args, Grows (call r env args)) (this : Word) (name : Text)
    (args : List Word) : Grows (dispatch shapes call this name args) := by
  refine .bind (fun s => .refl s) fun s => ?_
  split
  · exact .throw _
  · split
    · exact .throw _
    · split
      · exact .throw _
      · exact hcall _ _ _

/-- An object is put behind the others, so what was in the store stays where it was. -/
theorem construct_grows (cls : Text) (fields : List Word) :
    Grows (construct shapes cls fields) := by
  rw [construct]
  split
  · intro s
    exact s.extends_make _
  · exact .throw _

mutual

/-- Evaluating an expression only adds to the store. -/
theorem Expr.eval_grows (hcall : ∀ r env args, Grows (call r env args)) (env : Env) :
    ∀ e : Expr, Grows (e.eval shapes call env)
  | .missing => by rw [Expr.eval]; exact .throw _
  | .binary _ op l r => by
    have hl := Expr.eval_grows hcall env l
    have hr := Expr.eval_grows hcall env r
    cases op with
    | and | or => rw [Expr.eval]; exact .bind hl fun u => .ite (.pure _) hr
    | greaterEqual =>
      rw [Expr.eval]; exact .bind hr fun v => .bind hl fun u => BinaryOp.eval_grows _ u v
    | _ =>
      rw [Expr.eval]
      · exact .bind hl fun u => .bind hr fun v => BinaryOp.eval_grows _ u v
      all_goals nofun
  | .not _ e => by rw [Expr.eval]; exact .bind (Expr.eval_grows hcall env e) fun _ => .pure _
  | .cond _ c t e => by
    rw [Expr.eval]
    exact .bind (Expr.eval_grows hcall env c) fun _ =>
      .ite (Expr.eval_grows hcall env t) (Expr.eval_grows hcall env e)
  | .print _ e => by
    rw [Expr.eval]
    exact .bind (Expr.eval_grows hcall env e) fun w =>
      .bind (fun s => s.extends_print w) fun _ => .pure _
  | .int _ _ | .bool _ _ | .null _ => by rw [Expr.eval]; exact .pure _
  | .id _ name _ => by
    rw [Expr.eval]
    split
    · exact .pure _
    · exact .throw _
  | .call _ name as _ => by
    rw [Expr.eval]
    refine .bind (evalLastFirst_grows hcall env as) fun args => ?_
    split
    · exact hcall _ _ _
    · exact dispatch_grows hcall _ _ _
    · exact .throw _
  | .new _ name as _ => by
    rw [Expr.eval]
    exact .bind (evalFirstLast_grows hcall env as) fun _ => construct_grows _ _
  | .send _ receiver method as _ _ => by
    rw [Expr.eval]
    refine .bind (evalLastFirst_grows hcall env as) fun args => ?_
    split
    · exact .ite (.throw _) (dispatch_grows hcall _ _ _)
    · exact .throw _

theorem evalFirstLast_grows (hcall : ∀ r env args, Grows (call r env args)) (env : Env) :
    ∀ es : List Expr, Grows (evalFirstLast shapes call env es)
  | [] => by rw [evalFirstLast]; exact .pure _
  | e :: es => by
    rw [evalFirstLast]
    exact .bind (Expr.eval_grows hcall env e) fun _ =>
      .bind (evalFirstLast_grows hcall env es) fun _ => .pure _

theorem evalLastFirst_grows (hcall : ∀ r env args, Grows (call r env args)) (env : Env) :
    ∀ es : List Expr, Grows (evalLastFirst shapes call env es)
  | [] => by rw [evalLastFirst]; exact .pure _
  | e :: es => by
    rw [evalLastFirst]
    exact .bind (evalLastFirst_grows hcall env es) fun _ =>
      .bind (Expr.eval_grows hcall env e) fun _ => .pure _

end

/-- Evaluating declarations only adds to the store. -/
theorem evalDecls_grows (hcall : ∀ r env args, Grows (call r env args)) (env : Env)
    (ds : List Decl) : Grows (evalDecls shapes call env ds) := by
  induction ds generalizing env with
  | nil => exact .pure _
  | cons d ds ih =>
    cases d with
    | var v => exact .bind (Expr.eval_grows hcall env v.value) fun w => ih _
    | fn r => exact ih _
    | cls c => exact .throw _

/-- A call only adds to the store. -/
theorem invoke_grows (depth : Nat) (r : Routine) (env : Env) (args : List Word) :
    Grows (invoke shapes depth r env args) := by
  induction depth generalizing r env args with
  | zero => exact .throw _
  | succ depth ih =>
    exact .bind (evalDecls_grows ih _ _) fun _ => Expr.eval_grows ih _ _

end Foolscap
