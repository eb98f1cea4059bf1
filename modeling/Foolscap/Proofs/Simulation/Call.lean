import Foolscap.Proofs.Simulation.Expression
import Foolscap.Proofs.Typing.Gapless

/-!
# Calls and objects in code

Expressions with arguments: calls of functions and methods, and new objects.
-/

namespace Foolscap

open List

variable {W : World} {d height : Nat} {s : Scopes} {env : Env} {st : Store} {S : List Word}
  {fp : Nat} {as : List Nat}

/-! ### Arguments -/

variable {es : List Expr} {name : Text} {sp : Span}

/-- Arguments that are evaluated from the last to the first lie on the stack from the first on. -/
theorem evalLastFirst_sim (hes : ∀ e ∈ es, ExprSim W d height e) {ts : List Ty} (n : Nat)
    (k : List Line) (hframed : W.Framed s env st S (fp :: as))
    (hts : Typing.Conform W.context.supers (bindAll s es) ts) (hh : height ≤ S.length + d) :
    Sim W.toLoaded d height (evalLastFirst W.shapes (invoke W.shapes d) env es) st
      ⟨(codeArgsLastFirst (bindAll s es) n).1 ++ k, S, fp⟩
      (fun ws st' => List.Forall₂ (W.HasTy st') ws ts) fun ws => ⟨k, ws ++ S, fp⟩ := by
  induction es generalizing k ts n with
  | nil =>
    rw [bindAll] at hts ⊢
    cases hts
    rw [evalLastFirst, codeArgsLastFirst]
    exact .pure hframed.store .nil fun ra tm => .refl ⟨ra, tm, rfl⟩
  | cons e es ih =>
    rw [bindAll] at hts ⊢
    cases hts with
    | @cons _ t _ ts ht hts =>
      obtain ⟨got, hgot, hsub⟩ := ht
      rw [evalLastFirst, codeArgsLastFirst]
      simp only [append_assoc]
      have hes' : ∀ e ∈ es, ExprSim W d height e := (forall_mem_cons.mp hes).2
      refine .bind (evalLastFirst_grows (invoke_grows d) env es)
        (fun ws => .bind (eval_grows e env) fun _ => .pure _) (ih hes' n _ hts)
        fun ws st₁ hext hst₁ hws => ?_
      have hframed₁ := hframed.mono hext hst₁ (suffix_append ws S)
      refine .bind (eval_grows e env) (fun _ => .pure _)
        (hes e mem_cons_self _ k hframed₁ hgot (by rw [length_append]; omega))
        fun w st₂ hext' hst₂ hw => ?_
      exact .pure hst₂ (.cons (hw.subtype hsub) (hws.imp fun _ _ hv => hv.mono hext'))
        fun ra tm => .refl ⟨ra, tm, rfl⟩

/-- Arguments that are evaluated from the first to the last lie on the stack from the last on. -/
theorem evalFirstLast_sim (hes : ∀ e ∈ es, ExprSim W d height e) {ts : List Ty} (n : Nat)
    (k : List Line) (hframed : W.Framed s env st S (fp :: as))
    (hts : Typing.Conform W.context.supers (bindAll s es) ts) (hh : height ≤ S.length + d) :
    Sim W.toLoaded d height (evalFirstLast W.shapes (invoke W.shapes d) env es) st
      ⟨(codeArgs (bindAll s es) n).1 ++ k, S, fp⟩
      (fun ws st' => List.Forall₂ (W.HasTy st') ws ts) fun ws => ⟨k, ws.reverse ++ S, fp⟩ := by
  induction es generalizing ts n st S with
  | nil =>
    rw [bindAll] at hts ⊢
    cases hts
    rw [evalFirstLast, codeArgs]
    exact .pure hframed.store .nil fun ra tm => .refl ⟨ra, tm, rfl⟩
  | cons e es ih =>
    rw [bindAll] at hts ⊢
    cases hts with
    | @cons _ t _ ts ht hts =>
      obtain ⟨got, hgot, hsub⟩ := ht
      rw [evalFirstLast, codeArgs]
      simp only [append_assoc]
      have hes' : ∀ e ∈ es, ExprSim W d height e := (forall_mem_cons.mp hes).2
      refine .bind (eval_grows e env)
        (fun w => .bind (evalFirstLast_grows (invoke_grows d) env es) fun _ => .pure _)
        (hes e mem_cons_self n _ hframed hgot hh) fun w st₁ hext hst₁ hw => ?_
      have hframed₁ := (hframed.mono hext hst₁ suffix_rfl).push w
      refine .bind (evalFirstLast_grows (invoke_grows d) env es) (fun _ => .pure _)
        (ih hes' _ hframed₁ hts (by rw [length_cons]; omega)) fun ws st₂ hext' hst₂ hws => ?_
      refine .pure hst₂ (.cons ((hw.mono hext').subtype hsub) hws) fun ra tm => .refl ⟨ra, tm, ?_⟩
      simp

/-! ### Calls -/

/-- Only the names of classes have the types of classes. -/
theorem World.kind_ne_cls (hframed : W.Framed s env st S (fp :: as)) {u : Use}
    (hu : s.use? name = some u) (hty : ∀ origin fs ms, u.entry.ty ≠ .cls origin fs ms) :
    u.entry.kind ≠ .cls := by
  intro hkind
  obtain ⟨info, hinfo, he⟩ := hframed.site.classes name _ _ (hframed.site.use?_eq_some hu) hkind
  obtain ⟨shape, labels, hok⟩ := W.classOK name info hinfo
  obtain ⟨origin, ms, hcls⟩ := hok.entry_ty
  exact hty _ _ _ (he ▸ hcls)

/-- A method call on an object: a jump through the dispatch table of its class. -/
theorem Calls.sim_dispatch (hcalls : Calls W d height) {this : Word} {cls : Text}
    {args : List Word} {o : Object} {info : ClassInfo} {e : Entry} {ps : List Ty} {t : Ty}
    {k : List Line} (hst : W.StoreOK st) (hglobals : W.globals <:+ S) (hh : height ≤ S.length + d)
    (ho : st.object? this = some o) (hsub : W.context.supers.isSubclass o.cls cls)
    (hinfo : W.context.classes.get? cls = some info) (hmem : info.members.get? name = some e)
    (hkind : e.kind = .method) (hty : e.ty = .arrow ps t)
    (hargs : List.Forall₂ (W.HasTy st) args ps) (hpassed : Line.passed W.lines k = args.length) :
    Sim W.toLoaded d height (dispatch W.shapes (invoke W.shapes d) this name args) st
      ⟨Code.dispatch e.offset ++ k, this :: (args ++ Int64.ofNat fp :: S), fp⟩
      (fun w st' => W.HasTy st' w t) fun w => ⟨k, w :: S, fp⟩ := by
  obtain ⟨shape, labels, hok⟩ := W.classOK cls info hinfo
  -- The class of the object may have a method of its own in the slot.
  obtain ⟨info', shape', labels', hok', -, -, hmethods⟩ := W.refines_of_isSubclass hsub _ _ _ hok
  obtain ⟨e', he', hk', hoffset, hbelow⟩ := hmethods name e hmem hkind
  obtain ⟨j, owner, r, l, hj, hsig, hmethod, hlabel, howner, infoO, R, names, hinfoO, htables,
    hnames, hemitted⟩ := hok'.method name e' he' hk'
  obtain ⟨shapeO, p, hshapeO, rfl, htable, henv⟩ :=
    W.members_env (S := S) hst ho howner hinfoO hnames
  have heval : dispatch W.shapes (invoke W.shapes d) (Int64.ofNat p) name args st =
      invoke W.shapes d r (shapeO.members (Int64.ofNat p) o) args st := by
    rw [dispatch]
    show EStateM.bind EStateM.get _ st = _
    have hget : (EStateM.get : Eval Store) st = .ok st st := rfl
    simp only [EStateM.bind, hget, ho, hok'.shape_eq, Option.bind_some, hmethod, hshapeO]
  rw [hsig, hty, Routine.signature, Hierarchy.isSubtype_arrow] at hbelow
  obtain ⟨hret, hparams⟩ := hbelow
  rw [← htables] at henv
  refine .congr heval (.before (fun ra tm => ?_) (.mono (hcalls k hemitted henv
    (isChain_singleton p) hglobals hst (Loaded.HasTy.subtypes hargs hparams) hpassed hh)
    fun w st' c hc => ⟨hc.1, hc.2.1, hc.2.2.subtype hret⟩))
  refine .dispatch htable ?_ (W.slot_cell hok'.labels_eq hlabel) (.refl ⟨ra, _, rfl⟩)
  rw [← hoffset, hj]
  rfl

/-- A call of a function, or of a method of the same class.  The code follows as many access links
as there are levels between use and declaration. -/
theorem ExprSim.call {use : Option Use} (hcalls : Calls W d height)
    (hes : ∀ e ∈ es, ExprSim W d height e) : ExprSim W d height (.call sp name es use) := by
  intro s env st S fp as t n k hframed ht hh
  rw [Expr.bind] at ht ⊢
  obtain ⟨u, ps, hu, hty, hps⟩ := Expr.typeOf_call ht
  rw [hu]
  refine .of_code_suffix fun hcode => ?_
  have hpassed := Expr.passed_call hcode (Typing.Conform.gap? es hps)
  rw [Expr.code_call, Expr.eval]
  simp only [append_assoc, cons_append]
  refine .before (fun ra tm => .lfp (.refl ⟨ra, tm, rfl⟩)) (.bind
    (evalLastFirst_grows (invoke_grows d) env es) (fun args => ?_) (evalLastFirst_sim hes n _
      (hframed.push (Int64.ofNat fp)) hps (by rw [length_cons]; omega))
    fun args st₁ hext hst₁ hargs => ?_)
  · split
    · exact invoke_grows d _ _ _
    · exact dispatch_grows (invoke_grows d) _ _ _
    · exact .throw _
  have hframed₁ := hframed.mono hext hst₁ suffix_rfl
  have hpassed : Line.passed W.lines k = args.length := by
    rw [hpassed, hargs.length_eq, hps.length_eq]
  have hsuffix : S <:+ args ++ Int64.ofNat fp :: S :=
    (suffix_cons _ _).trans (suffix_append _ _)
  have hchain := hframed₁.chain.mono prefix_rfl hsuffix
  obtain ⟨b, hb, hbound⟩ := hframed₁.bound hu (World.kind_ne_cls hframed hu (by rw [hty]; simp))
  rw [hb]
  generalize hframes : (fp :: as).drop u.hops = frames at hbound
  cases hbound with
  | value _ _ _ hval =>
    rw [hty] at hval
    exact hval.elim
  | method hkind ho hsub hinfo hmem =>
    rw [if_pos hkind]
    refine .before (fun ra tm => ?_) (hcalls.sim_dispatch hst₁ hframed₁.globals hh ho hsub hinfo
      hmem hkind hty hargs hpassed)
    exact .frame hchain (getElem?_of_drop_eq_cons hframes) (.refl ⟨ra, tm, rfl⟩)
  | @function a b as' R t' ts e r l known at_ htables he hoff hcell hemitted hchain' hknown
      hbound =>
    rw [if_neg (by rw [he]; simp)]
    obtain ⟨rfl, rfl⟩ : ps = r.params.map (fun p => p.annotation.ty) ∧ t = r.ret.ty := by
      rw [he] at hty
      simpa [Routine.signature, eq_comm] using hty
    have hlocal : (a : Int) + R.nextLocal = b := by rw [← hoff, he]
    have henv := Loaded.EnvRel.function htables hlocal hcell hemitted hchain' hknown hbound
    refine .before (fun ra tm => ?_) (hcalls k hemitted henv hchain' hframed₁.globals hst₁ hargs
      hpassed hh)
    exact .frame hchain (getElem?_of_drop_eq_cons hframes) (.callFunction hoff
      (hcell.mono prefix_rfl hsuffix) (.refl ⟨ra, _, rfl⟩))

/-! ### Objects -/

/-- The construction of an object: the arguments are moved to the heap, and the address of the
dispatch table is put behind them. -/
theorem ExprSim.new {entry : Option Entry} (hes : ∀ e ∈ es, ExprSim W d height e) :
    ExprSim W d height (.new sp name es entry) := by
  intro s env st S fp as t n k hframed ht hh
  rw [Expr.bind] at ht ⊢
  obtain ⟨e, origin, fs, ms, he, hty, rfl, hfs⟩ := Expr.typeOf_new ht
  obtain ⟨-, info, hinfo, rfl⟩ := hframed.site.class?_eq_some he
  obtain ⟨shape, labels, hok⟩ := W.classOK name info hinfo
  obtain rfl : fs = info.fieldTypes := by rw [ClassInfo.fieldTypes, hty]
  rw [he, Expr.code_new, Expr.eval, append_assoc]
  refine .bind (evalFirstLast_grows (invoke_grows d) env es) (fun _ => construct_grows _ _)
    (evalFirstLast_sim hes n _ hframed hfs hh) fun ws st₁ hext hst₁ hws => ?_
  have hframed₁ := hframed.mono hext hst₁ suffix_rfl
  have heval : construct W.shapes name ws st₁ =
      .ok (Int64.ofNat (st₁.place ⟨name, ws⟩)) (st₁.make ⟨name, ws⟩) := by
    rw [construct, if_pos (by simp [Table.has, hok.shape_eq])]
    rfl
  have hlen : ws.reverse.length = (bindAll s es).length := by
    rw [length_reverse, hws.length_eq, hfs.length_eq]
  have hstore := hst₁.make (o := ⟨name, ws⟩) hinfo hws
  refine .of_ok heval fun hnext ra tm => .of_holds fun m hm => ?_
  have hle := hm.stack_le
  simp only [Spot.config, length_append] at hle
  obtain ⟨b, hb, hcell⟩ := hok.class_cell (H := W.heap st₁) hframed₁.globals (by omega)
  have hplace : (st₁.make ⟨name, ws⟩).next = st₁.next + ws.length + 1 := rfl
  have hsized := hst₁.sized
  refine .construct hlen (by rw [length_reverse]; omega) (.inl (W.global_cell hok.labels_eq)) hb
    hcell (.of_holds fun m' hm' => .refl ⟨⟨ra, tm, ?_⟩, hstore, .inr ⟨⟨name, ws⟩, ?_, ?_⟩⟩)
  · simp only [Spot.config, Config.mk.injEq, true_and]
    refine ⟨?_, ?_, rfl⟩
    · rw [hsized, length_reverse]
      rfl
    · simp [Loaded.heap, Store.make, Loaded.heapOf_append, Loaded.cells]
  · have hle' := hm'.stack_le
    have hlt := W.size_lt
    simp only [length_cons, length_append, length_reverse, length_nil] at hle'
    exact hst₁.object?_make (by omega)
  · exact Hierarchy.isSubclass_refl name

/-! ### Method calls -/

/-- A name of a reference type stands for a value. -/
theorem World.kinds_of_ref (hframed : W.Framed s env st S (fp :: as)) {cls : Text} {u : Use}
    (hu : s.use? name = some u) (hty : u.entry.ty = .ref cls) :
    u.entry.kind ≠ .fn ∧ u.entry.kind ≠ .method ∧ u.entry.kind ≠ .cls := by
  have hcls := World.kind_ne_cls hframed hu (by rw [hty]; nofun)
  obtain ⟨b, -, hbound⟩ := hframed.bound hu hcls
  generalize (fp :: as).drop u.hops = frames at hbound
  cases hbound with
  | value hkind => exact ⟨hkind.1, hkind.2, hcls⟩
  | method hkind _ _ hinfo hmem =>
    obtain ⟨shape, labels, hok⟩ := W.classOK _ _ hinfo
    obtain ⟨_, _, r, _, _, hsig, _⟩ := hok.method _ _ hmem hkind
    rw [hty] at hsig
    cases hsig
  | function _ he =>
    rw [he] at hty
    cases hty

/-- A call of a method.  At null both end with an error, the code because no cell has the address
of null; otherwise the dispatch table of the class of the object holds the method. -/
theorem ExprSim.send {receiver method : Text} {use : Option Use} {target : Option Entry}
    (hcalls : Calls W d height) (hes : ∀ e ∈ es, ExprSim W d height e) :
    ExprSim W d height (.send sp receiver method es use target) := by
  intro s env st S fp as t n k hframed ht hh
  rw [Expr.bind] at ht ⊢
  obtain ⟨e, ps, he, hety, hps⟩ := Expr.typeOf_send ht
  obtain ⟨u, cls, info, hu, hu', huty, hinfo, hmem, hkind⟩ := Scopes.receive_target he
  rw [he, hu']
  refine .of_code_suffix fun hcode => ?_
  have hpassed := Expr.passed_send hcode (Typing.Conform.gap? es hps)
  rw [Expr.code_send, Expr.eval]
  simp only [append_assoc, cons_append]
  refine .before (fun ra tm => .lfp (.refl ⟨ra, tm, rfl⟩)) (.bind
    (evalLastFirst_grows (invoke_grows d) env es) (fun args => ?_) (evalLastFirst_sim hes n _
      (hframed.push (Int64.ofNat fp)) hps (by rw [length_cons]; omega))
    fun args st₁ hext hst₁ hargs => ?_)
  · split
    · exact .ite (.throw _) (dispatch_grows (invoke_grows d) _ _ _)
    · exact .throw _
  have hframed₁ := hframed.mono hext hst₁ suffix_rfl
  have hpassed : Line.passed W.lines k = args.length := by
    rw [hpassed, hargs.length_eq, hps.length_eq]
  have hsuffix : S <:+ args ++ Int64.ofNat fp :: S :=
    (suffix_cons _ _).trans (suffix_append _ _)
  obtain ⟨w, hw, hwty, hload⟩ := hframed₁.value (d := d) hu (World.kinds_of_ref hframed hu huty)
  rw [hw]
  dsimp only
  split
  · next hnull =>
    subst hnull
    refine .throw fun ra tm => .of_holds fun m hm => ?_
    exact Runs.stops (hload hsuffix (.dispatch_begin (.refl rfl)))
      fun c hc => hc ▸ .refl (.nullReceiver hm.code_suffix)
  · next hne =>
    rw [huty] at hwty
    obtain ⟨o, ho, hsub⟩ := hwty.resolve_left hne
    exact .before (fun ra tm => hload hsuffix (.refl ⟨ra, tm, rfl⟩)) (hcalls.sim_dispatch hst₁
      hframed₁.globals hh ho hsub (hframed.site.context cls info hinfo) hmem hkind hety hargs
      hpassed)

/-! ### All expressions -/

mutual

/-- If calls are simulated, so are all expressions. -/
theorem Expr.sim (hcalls : Calls W d height) : ∀ e : Expr, ExprSim W d height e
  | .missing => by
    intro s env st S fp as t n k _ ht
    rw [Expr.bind, Expr.typeOf] at ht
    cases ht
  | .binary _ op l r => by
    have hl := Expr.sim hcalls l
    have hr := Expr.sim hcalls r
    cases op with
    | plus | minus | times | div => exact .arithmetic (by simp) hl hr
    | equal | lessEqual | greaterEqual => exact .comparison (by simp) hl hr
    | and | or => exact .logical (by simp) hl hr
  | .not _ e => .not (Expr.sim hcalls e)
  | .cond _ c y e => .cond (Expr.sim hcalls c) (Expr.sim hcalls y) (Expr.sim hcalls e)
  | .print _ e => .print (Expr.sim hcalls e)
  | .int _ _ => .int
  | .bool _ _ => .bool
  | .null _ => .null
  | .id _ _ _ => .id
  | .call _ _ es _ => .call hcalls (allExprs_sim hcalls es)
  | .new _ _ es _ => .new (allExprs_sim hcalls es)
  | .send _ _ _ es _ _ => .send hcalls (allExprs_sim hcalls es)

theorem allExprs_sim (hcalls : Calls W d height) : ∀ es : List Expr, ∀ e ∈ es, ExprSim W d height e
  | [], _, he => absurd he not_mem_nil
  | e :: es, e', he => (mem_cons.mp he).elim (fun heq => heq ▸ Expr.sim hcalls e)
      (allExprs_sim hcalls es e')

end

end Foolscap
