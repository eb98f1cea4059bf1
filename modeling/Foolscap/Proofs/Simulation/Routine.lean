import Foolscap.Proofs.Assembly.Emission
import Foolscap.Proofs.Simulation.Call

/-!
# Routines in code

The code of declarations and of routines does what their evaluation does.

## Design Notes

A frame is told by two parts of the stack: what lies below the return address does not change while
the routine runs, and above the return address there is a word for each declaration so far.  What
comes after declarations is part of what is said of them, because the words on the stack cannot be
told from the environment.
-/

namespace Foolscap

open List

variable {W : World} {d height : Nat} {env : Env} {st : Store} {S : List Word} {fp : Nat}
  {as : List Nat}

/-! ### Parameters -/

variable {R : Resolver} {ps : List Param} {offset : Int} {t : Table Entry} {ts : List (Table Entry)}
  {L : Loaded} {l : Label} {r : Routine}

theorem Resolver.params_fresh (htables : R.scopes.tables = t :: ts)
    (hclean : (R.params offset ps).errors = []) : ∀ p ∈ ps, t.get? p.name = none := by
  induction ps generalizing R offset t with
  | nil => exact fun p hp => absurd hp not_mem_nil
  | cons p ps ih =>
    obtain ⟨hfresh, heq⟩ := params_cons_eq htables hclean
    rw [heq] at hclean
    intro p' hp'
    rcases mem_cons.mp hp' with rfl | hp'
    · exact hfresh
    · have hnone := ih rfl hclean p' hp'
      by_cases hname : p'.name = p.name
      · rw [hname, Table.get?_put_self] at hnone
        cases hnone
      · rwa [Table.get?_put_of_ne _ _ hname] at hnone

theorem Site.params {final : Context} (hsite : Site final R.scopes)
    (htables : R.scopes.tables = t :: ts) (hclean : (R.params offset ps).errors = [])
    (hcomplete : ∀ p ∈ ps, p.annotation.ty.isComplete) :
    Site final (R.params offset ps).scopes ∧
      ∃ t', (R.params offset ps).scopes.tables = t' :: ts := by
  induction ps generalizing R offset t with
  | nil => exact ⟨hsite, t, htables⟩
  | cons p ps ih =>
    obtain ⟨-, heq⟩ := Resolver.params_cons_eq htables hclean
    rw [heq] at hclean ⊢
    have hsite' := hsite.put htables p.name (e := ⟨R.level, p.annotation.ty, offset, .par, p.span⟩)
      rfl (hcomplete p mem_cons_self) nofun
    exact ih hsite' rfl hclean (forall_mem_cons.mp hcomplete).2

/-- Arguments are found where parameters are, and are known under their names. -/
theorem params_framed {args rest : List Word} (htables : R.scopes.tables = t :: ts)
    (hclean : (R.params offset ps).errors = [])
    (henv : W.EnvRel st S (fp :: as) R.scopes.tables env)
    (hargs : List.Forall₂ (W.HasTy st) args (ps.map fun p => p.annotation.ty))
    (hsuffix : args ++ rest <:+ S) (hoffset : 0 ≤ offset)
    (hfp : (fp : Int) + offset + (args ++ rest).length = W.size) :
    W.EnvRel st S (fp :: as) (R.params offset ps).scopes.tables
        ((ps.map Param.name).zip (args.map Binding.value) ++ env) ∧
      (R.params offset ps).nextLocal = R.nextLocal := by
  induction ps generalizing R offset t args env with
  | nil =>
    cases hargs
    exact ⟨henv, rfl⟩
  | cons p ps ih =>
    cases args with
    | nil => cases hargs
    | cons w args =>
      obtain ⟨hw, hargs⟩ := forall₂_cons.mp hargs
      obtain ⟨-, heq⟩ := Resolver.params_cons_eq htables hclean
      rw [heq] at hclean ⊢
      have hfresh := Resolver.params_fresh rfl hclean
      simp only [cons_append, length_cons] at hsuffix hfp
      have hcell : Cell W.size (W.heap st) S (W.size - ((args ++ rest).length + 1)) w :=
        .of_suffix hsuffix (by omega)
      have hbound : W.Bound st S (fp :: as) ⟨R.level, p.annotation.ty, offset, .par, p.span⟩ p.name
          (.value w) := .value ⟨nofun, nofun⟩ (by dsimp only; omega) hcell hw
      obtain ⟨henv', hlocal⟩ := ih rfl hclean ((htables ▸ henv).put hbound) hargs
        ((suffix_cons _ _).trans hsuffix) (by omega) (by push_cast at hfp ⊢; omega)
      refine ⟨henv'.congr fun name => ?_, hlocal⟩
      -- The first parameter is looked up first; its name is none of the others.
      rw [map_cons, map_cons, zip_cons_cons, cons_append, Table.get?_cons,
        Table.get?_append, Table.get?_append, Table.get?_cons]
      split
      · next hname =>
        rw [Table.get?_zip_of_notMem]
        · rfl
        · intro hmem
          obtain ⟨q, hq, hq'⟩ := mem_map.mp hmem
          have hnone := hfresh q hq
          rw [hq', ← hname, Table.get?_put_self] at hnone
          cases hnone
      · rfl

/-! ### Declarations -/

/-- The frame of a routine after some of its declarations: the words that were pushed for them lie
above the return address. -/
structure Loaded.Activation (L : Loaded) (R : Resolver) (env : Env) (st : Store) (vs : List Word)
    (ra : Word) (F : List Word) (fp : Nat) (as : List Nat) : Prop
    extends L.Framed R.scopes env st (vs ++ ra :: F) (fp :: as) where
  size_eq : fp + F.length = L.size
  nextLocal_eq : R.nextLocal = -2 - (vs.length : Int)
  tables_ne : R.scopes.tables ≠ []

/-- Declarations that were resolved, checked and generated, the first two without errors. -/
structure Loaded.DeclsOK (L : Loaded) (R : Resolver) (g : Emitter) (ds : List Decl) : Prop where
  plain : AllPlain ds
  clean : (resolveDecls R ds).2.errors = []
  quiet : Typing.Quiet (checkDecls L.context.supers (resolveDecls R ds).1)
  emitted : ∃ k, (codeDecls g (resolveDecls R ds).1).2.routines ++ k <:+ L.lines

namespace Loaded.Activation

variable {L : Loaded} {R R' : Resolver} {st' : Store} {vs F : List Word} {ra : Word}
  (h : L.Activation R env st vs ra F fp as)

include h

theorem mono (hext : st.Extends st') (hst' : L.StoreOK st') :
    L.Activation R env st' vs ra F fp as :=
  { h with toFramed := h.toFramed.mono hext hst' suffix_rfl }

theorem congr (hscopes : R'.scopes = R.scopes) (hlocal : R'.nextLocal = R.nextLocal) :
    L.Activation R' env st vs ra F fp as :=
  ⟨hscopes ▸ h.toFramed, h.size_eq, hlocal ▸ h.nextLocal_eq, hscopes ▸ h.tables_ne⟩

/-- One more declaration, at the next local offset. -/
theorem declare {t : Table Entry} {ts : List (Table Entry)} (htables : R.scopes.tables = t :: ts)
    {name : Text} {w : Word} {e : Entry} {b : Binding}
    (hR : R' = { R with nextLocal := R.nextLocal - 1, scopes.tables := t.put name e :: ts })
    (hlevel : e.level = R.level) (hty : e.ty.isComplete) (hkind : e.kind ≠ .cls)
    (hle : (w :: vs ++ ra :: F).length ≤ L.size)
    (hbound : ∀ a : Nat, (fp : Int) + R.nextLocal = a →
      Cell L.size (L.heap st) (w :: vs ++ ra :: F) a w →
      L.Bound st (w :: vs ++ ra :: F) (fp :: as) e name b) :
    L.Activation R' ((name, b) :: env) st (w :: vs) ra F fp as := by
  subst hR
  have hframed := h.push w
  have hlocal := h.nextLocal_eq
  have hsize := h.size_eq
  simp only [length_append, length_cons] at hle
  have hb := hbound (L.size - ((vs ++ ra :: F).length + 1))
    (by simp only [length_append, length_cons]; omega)
    (.of_suffix (T := vs ++ ra :: F) suffix_rfl
      (by simp only [length_append, length_cons]; omega))
  refine ⟨⟨h.site.put htables name hlevel hty hkind, ?_, hframed.chain, hframed.globals,
    hframed.store⟩, hsize, ?_, nofun⟩
  · exact (htables ▸ hframed.env).put hb
  · simp only [hlocal, length_cons]
    omega

end Loaded.Activation

namespace Loaded.DeclsOK

variable {L : Loaded} {R : Resolver} {g : Emitter} {x : Decl} {ds : List Decl}

theorem tail (h : L.DeclsOK R g (x :: ds)) :
    L.DeclsOK (x.resolve R).2 ((x.resolve R).1.code g).2 ds := by
  obtain ⟨hplain, hclean, hquiet, k, hk⟩ := h
  rw [resolveDecls_cons] at hclean hquiet hk
  rw [codeDecls_cons] at hk
  rw [checkDecls, Typing.quiet_append] at hquiet
  exact ⟨hplain.2, hclean, hquiet.2, k, hk⟩

theorem head_clean (h : L.DeclsOK R g (x :: ds)) : (x.resolve R).2.errors = [] :=
  (resolveDecls_kept ds h.tail.plain _).clean h.tail.clean

theorem head_quiet (h : L.DeclsOK R g (x :: ds)) :
    Typing.Quiet ((x.resolve R).1.check L.context.supers) := by
  have hquiet := h.quiet
  rw [resolveDecls_cons, checkDecls, Typing.quiet_append] at hquiet
  exact hquiet.1

/-- A function among declarations is emitted. -/
theorem emitted_fn {r : Routine} (h : L.DeclsOK R g (.fn r :: ds))
    (hsite : Site L.context (R.fn r).scopes) : L.Emitted (R.fn r) (.routine g.nextRoutine) r := by
  have hclean := h.head_clean
  have hquiet := h.head_quiet
  obtain ⟨k, hk⟩ := h.tail.emitted
  rw [Decl.resolve_fn] at hclean hquiet hk
  rw [Decl.check] at hquiet
  obtain ⟨more, hmore⟩ := codeDecls_isPrefix (resolveDecls (r.resolveInside (R.fn r)).2 ds).1
    ((Decl.fn (r.resolveInside (R.fn r)).1).code g).2
  refine ⟨h.plain.1, hsite, hclean, ⟨false, hquiet⟩, g.takeRoutine.2, more ++ k, ?_⟩
  rw [← append_assoc]
  rw [← hmore, Decl.code] at hk
  exact hk

/-- Every declaration leaves one word. -/
theorem pushes (h : L.DeclsOK R g ds) (hcomplete : L.context.Complete)
    (hsite : Site L.context R.scopes) (htables : R.scopes.tables ≠ []) :
    Site L.context (resolveDecls R ds).2.scopes ∧ ∀ d ∈ (resolveDecls R ds).1, d.Pushes := by
  induction ds generalizing R g with
  | nil =>
    rw [resolveDecls]
    exact ⟨hsite, fun d hd => absurd hd not_mem_nil⟩
  | cons x ds ih =>
    obtain ⟨t, ts, htables⟩ := exists_cons_of_ne_nil htables
    have htail := h.tail
    have hclean := h.head_clean
    have hplain := h.plain.1
    rw [resolveDecls_cons, forall_mem_cons]
    cases x with
    | var v =>
      have hquiet := h.head_quiet
      have hannotation : v.annotation.ty.isComplete := hplain
      rw [Decl.resolve_var] at hclean hquiet htail ⊢
      rw [Decl.check, Typing.var, if_pos hannotation] at hquiet
      obtain ⟨got, hgot, -⟩ := Typing.conforms_quiet hquiet (fun _ h => by cases h)
        (Expr.typeOf_bind_ne_incomplete hsite hcomplete v.value)
      obtain ⟨-, hR⟩ := Resolver.var_eq (r := (R.expr v.value).2) htables hclean
      have hsite' : Site L.context ((R.expr v.value).2.var v).scopes := by
        rw [hR]
        exact hsite.put htables v.name rfl hannotation (by simp)
      obtain ⟨hsite', hpushes⟩ := ih htail hsite' (by rw [hR]; exact cons_ne_nil _ _)
      exact ⟨hsite', Expr.gap?_of_typeOf v.value hgot, hpushes⟩
    | fn r =>
      obtain ⟨herr, hscopes, hlocal⟩ := Routine.resolveInside_still r hplain (R.fn r)
      rw [Decl.resolve_fn] at hclean htail ⊢
      obtain ⟨-, hR⟩ := Resolver.fn_eq htables (prefix_nil.mp (hclean ▸ herr))
      have hsite' : Site L.context (r.resolveInside (R.fn r)).2.scopes := by
        rw [hscopes, hR]
        exact hsite.put htables r.name rfl hplain.signature (by simp)
      obtain ⟨hsite', hpushes⟩ := ih htail hsite' (by rw [hscopes, hR]; exact cons_ne_nil _ _)
      exact ⟨hsite', trivial, hpushes⟩
    | cls c => exact hplain.elim

end Loaded.DeclsOK

/-- Declarations are pushed one after the other. -/
theorem evalDecls_sim (hcalls : Calls W d height) {g : Emitter} {ds : List Decl}
    (hds : W.DeclsOK R g ds) {vs F : List Word} {ra : Word} {k : List Line}
    (hact : W.Activation R env st vs ra F fp as) (hh : height ≤ (vs ++ ra :: F).length + d)
    {f : Env → Eval Word} (hf : ∀ env, Grows (f env)) {Q : Word → Store → Config → Prop}
    (h : ∀ env' st' vs', vs'.length = vs.length + ds.length →
      W.Activation (resolveDecls R ds).2 env' st' vs' ra F fp as →
      Follows W.toLoaded d height (f env') st' ⟨k, vs' ++ ra :: F, fp⟩ Q) :
    Follows W.toLoaded d height (evalDecls W.shapes (invoke W.shapes d) env ds >>= f) st
      ⟨(codeDecls g (resolveDecls R ds).1).1 ++ k, vs ++ ra :: F, fp⟩ Q := by
  induction ds generalizing R g env st vs with
  | nil =>
    rw [resolveDecls] at h ⊢
    rw [codeDecls]
    exact .congr rfl (h env st vs rfl hact)
  | cons x ds ih =>
    obtain ⟨t, ts, htables⟩ := exists_cons_of_ne_nil hact.tables_ne
    have hgrows : ∀ env, Grows (evalDecls W.shapes (invoke W.shapes d) env ds >>= f) :=
      fun env => .bind (evalDecls_grows (invoke_grows d) env ds) hf
    have htail := hds.tail
    have hclean := hds.head_clean
    rw [resolveDecls_cons] at h ⊢
    rw [codeDecls_cons, append_assoc]
    have hlen : ∀ {w : Word} {vs' : List Word}, vs'.length = (w :: vs).length + ds.length →
        vs'.length = vs.length + (x :: ds).length := by
      intro w vs' hvs'
      simp only [length_cons] at hvs' ⊢
      omega
    have hhigher : ∀ w : Word, height ≤ (w :: vs ++ ra :: F).length + d := by
      intro w
      simp only [length_append, length_cons] at hh ⊢
      omega
    cases x with
    | var v =>
      have hquiet := hds.head_quiet
      have hcomplete : v.annotation.ty.isComplete := hds.plain.1
      rw [Decl.resolve_var] at h hclean hquiet htail ⊢
      rw [Decl.check, Typing.var, if_pos hcomplete] at hquiet
      obtain ⟨got, hgot, hsub⟩ := Typing.conforms_quiet hquiet (fun _ h => by cases h)
        (Expr.typeOf_bind_ne_incomplete hact.site W.complete v.value)
      obtain ⟨-, hR⟩ := Resolver.var_eq (r := (R.expr v.value).2) htables hclean
      rw [evalDecls, bind_assoc, Decl.code]
      refine .bind (eval_grows v.value env) (fun w => hgrows _)
        (Expr.sim hcalls v.value _ _ hact.toFramed hgot hh) fun w st₁ hext hst₁ hw => ?_
      refine .of_stack_le fun hle => ih htail ?_ (hhigher w) fun env' st' vs' hvs' =>
        h env' st' vs' (hlen hvs')
      have hact' : W.Activation (R.expr v.value).2 env st₁ vs ra F fp as :=
        (hact.mono hext hst₁).congr rfl rfl
      refine hact'.declare htables hR rfl hcomplete (by simp)
        (Nat.le_trans (Nat.le_add_right _ _) hle) fun a ha hcell => ?_
      exact .value (by simp) ha hcell (hw.subtype hsub)
    | fn r =>
      have hplain : r.Plain := hds.plain.1
      obtain ⟨herr, hscopes, hlocal⟩ := Routine.resolveInside_still r hplain (R.fn r)
      rw [Decl.resolve_fn] at h hclean htail ⊢
      obtain ⟨-, hR⟩ := Resolver.fn_eq htables (prefix_nil.mp (hclean ▸ herr))
      have hsite : Site W.context (R.fn r).scopes := by
        rw [hR]
        exact hact.site.put htables r.name rfl hplain.signature (by simp)
      have hemitted := hds.emitted_fn hsite
      rw [evalDecls, Decl.code]
      have hpushed := hact.push (W.slot (.routine g.nextRoutine))
      have hknown : ∀ name i e, Scopes.locate R.scopes.tables name = some (i, e) → e.kind ≠ .cls →
          env.get? name = some ((env.get? name).getD (.value 0)) ∧
            W.Bound st (W.slot (.routine g.nextRoutine) :: (vs ++ ra :: F)) ((fp :: as).drop i) e
              name ((env.get? name).getD (.value 0)) := by
        intro name i e hl hk
        obtain ⟨b, hb, hbound⟩ := hpushed.env name i e hl hk
        rw [hb]
        exact ⟨rfl, hbound⟩
      have hact' : (W.slot (.routine g.nextRoutine) :: vs ++ ra :: F).length ≤ W.size →
          W.Activation (R.fn r) ((r.name, .function r env) :: env) st
            (W.slot (.routine g.nextRoutine) :: vs) ra F fp as := by
        intro hle
        refine hact.declare htables hR rfl hplain.signature (by simp) hle fun a ha hcell => ?_
        exact .function htables rfl ha hcell hemitted hpushed.chain
          (fun name i e hl hk => (hknown name i e hl hk).1)
          fun name i e hl hk => (hknown name i e hl hk).2
      refine .before (fun ra' tm => .pushLabel (.refl ⟨ra', tm, rfl⟩)) (.of_stack_le fun hle =>
        ih htail (.congr (hact' ?_) hscopes hlocal) (hhigher _) fun env' st' vs' hvs' =>
          h env' st' vs' (hlen hvs'))
      exact Nat.le_trans (Nat.le_add_right _ _) hle
    | cls c => exact hds.plain.1.elim

/-! ### Calls -/

/-- A jump to a routine, its frame, and the jump back. -/
theorem Follows.call {x : Eval Word} {code k : List Line} {F : List Word}
    {ok : Word → Store → Prop} (rest : List Line) (hS : S.length ≤ F.length)
    (hl : .mark l :: .op .cfp :: .op .lra :: code <:+ L.lines)
    (htakes : Line.Takes L.lines l (Line.passed L.lines k))
    (hrest : .op .lra :: .op .js :: rest <:+ L.lines) (h : Sim L d height x st
      ⟨code, Int64.ofNat (Line.place L.lines k) :: F, L.size - F.length⟩ ok
      fun w => ⟨.op .js :: rest, Int64.ofNat (Line.place L.lines k) :: w :: S, fp⟩) :
    Sim L (d + 1) height x st ⟨.op .js :: k, L.slot l :: F, fp⟩ ok fun w => ⟨k, w :: S, fp⟩ := by
  cases hx : x st with
  | ok a st' =>
    refine .of_ok hx fun hnext ra tm => .call hl htakes (.enter ((h.ok hx hnext _ tm).mono ?_))
    rintro _ ⟨⟨ra', tm', rfl⟩, hst', hok⟩
    exact ⟨rest, a :: S, rfl, hrest, rfl, Nat.succ_le_succ hS,
      fun ra => ⟨⟨ra, tm', rfl⟩, hst', hok⟩⟩
  | error e st' =>
    refine .of_error hx fun hnext ra tm => .call hl htakes ?_
    exact (Runs.enter (.refl rfl)).stops fun c hc => hc ▸ h.error hx hnext _ tm

/-- The parts of a routine that was resolved, checked and generated. -/
theorem Loaded.Emitted.parts (h : L.Emitted R l r) :
    ∃ g k wrong, L.DeclsOK (R.inside r) g r.decls ∧ (∀ t, wrong t ≠ .incomplete) ∧
      Typing.Quiet (Typing.conforms L.context.supers
        (r.body.bind (resolveDecls (R.inside r) r.decls).2.scopes) r.ret.ty wrong) ∧
      Code.routine l r.decls.length r.params.length
        ((codeDecls g (resolveDecls (R.inside r) r.decls).1).1 ++
          ((r.body.bind (resolveDecls (R.inside r) r.decls).2.scopes).code
            (codeDecls g (resolveDecls (R.inside r) r.decls).1).2.nextBranch).1) ++ k <:+
        L.lines := by
  obtain ⟨hplain, -, hclean, ⟨isMethod, hquiet⟩, g, k, hk⟩ := h
  have hsig := hplain.signature
  have hdecls : AllPlain r.decls := by
    obtain ⟨_, _, _, _, _, _⟩ := r
    exact hplain.2.2
  have hclean' := prefix_nil.mp (hclean ▸ r.resolveInside_errors R)
  rw [Routine.resolveInside_fst] at hquiet hk
  rw [Routine.check, if_pos (by exact hsig), Typing.quiet_append] at hquiet
  rw [Routine.emit_routines, length_resolveDecls, append_assoc] at hk
  refine ⟨g, k, _, ⟨hdecls, hclean', hquiet.1, _, hk⟩, ?_, hquiet.2,
    (suffix_append _ _).trans hk⟩
  exact fun _ h => by cases h

/-- The scope inside a routine. -/
theorem Loaded.Emitted.site_inside (h : L.Emitted R l r) :
    Site L.context (R.inside r).scopes ∧
      ∃ t, (R.inside r).scopes.tables = t :: R.scopes.tables := by
  obtain ⟨_, _, _, hds, -⟩ := h.parts
  have hclean : (R.inside r).errors = [] := (resolveDecls_kept _ hds.plain _).clean hds.clean
  refine Site.params (R := R.enter []) h.site.enter rfl hclean ?_
  have hplain := h.plain
  obtain ⟨_, _, _, _, _, _⟩ := r
  exact hplain.2.1

/-- A routine takes as many arguments as it has parameters. -/
theorem Loaded.Emitted.takes (h : W.Emitted R l r) : Line.Takes W.lines l r.params.length := by
  obtain ⟨g, k, wrong, hds, hwrong, hquiet, hcode⟩ := h.parts
  obtain ⟨hsite, t, htables⟩ := h.site_inside
  obtain ⟨hsite', hpushes⟩ := hds.pushes W.complete hsite (by rw [htables]; nofun)
  obtain ⟨got, hgot, -⟩ := Typing.conforms_quiet hquiet hwrong
    (Expr.typeOf_bind_ne_incomplete hsite' W.complete r.body)
  rw [← length_resolveDecls (R.inside r)] at hcode
  exact ⟨_, g, _, _, k, hpushes, Expr.gap?_of_typeOf r.body hgot, hcode⟩

/-- The frame at the entry of a routine, under the return address: the access link, then the
arguments. -/
theorem Loaded.Emitted.activation {known : Env} {args rest : List Word} {a : Nat}
    (h : W.Emitted R l r) (henv : W.EnvRel st S (a :: as) R.scopes.tables known)
    (hchain : Chain W.size (W.heap st) S (a :: as)) (hglobals : W.globals <:+ S)
    (hst : W.StoreOK st)
    (hargs : List.Forall₂ (W.HasTy st) args (r.params.map fun p => p.annotation.ty))
    (hrest : S <:+ rest) (hle : (Int64.ofNat a :: (args ++ rest)).length ≤ W.size) (ra : Word) :
    W.Activation (R.inside r) (r.arguments args ++ known) st [] ra (Int64.ofNat a :: (args ++ rest))
      (W.size - (Int64.ofNat a :: (args ++ rest)).length) (a :: as) := by
  obtain ⟨_, _, _, hds, -⟩ := h.parts
  have hclean : (R.inside r).errors = [] := (resolveDecls_kept _ hds.plain _).clean hds.clean
  have hbelow : S <:+ [] ++ ra :: Int64.ofNat a :: (args ++ rest) :=
    hrest.trans ((suffix_append args rest).trans ⟨[ra, Int64.ofNat a], rfl⟩)
  simp only [length_cons] at hle ⊢
  have henv' := (henv.mono (.refl st) hbelow).enter (W.size - ((args ++ rest).length + 1))
  obtain ⟨hsite, t, htables⟩ := h.site_inside
  obtain ⟨henv', hlocal⟩ := params_framed (R := R.enter []) rfl hclean henv' hargs
    ⟨[ra, Int64.ofNat a], rfl⟩ (by decide) (by rw [Frame.firstParam]; omega)
  refine ⟨⟨hsite, henv', ?_, hglobals.trans hbelow, hst⟩, ?_, hlocal, by rw [htables]; nofun⟩
  · refine isChain_cons_cons.mpr ⟨?_, hchain.mono prefix_rfl hbelow⟩
    exact .of_suffix (T := args ++ rest) ⟨[ra], rfl⟩ (by omega)
  · rw [length_cons]
    omega

/-- Calls are simulated, however deep they are nested. -/
theorem World.calls (W : World) (height d : Nat) : Calls W d height := by
  induction d with
  | zero =>
    intro R l r known args st S fp a as k _ _ _ _ _ _ _ hh
    refine .throw fun ra tm => .refl (.unfinished ?_)
    simp only [Spot.config, length_cons, length_append]
    omega
  | succ d ih =>
    intro R l r known args st S fp a as k hemitted henv hchain hglobals hst hargs hpassed hh
    obtain ⟨g, rest, wrong, hds, hwrong, hquiet, hcode⟩ := hemitted.parts
    have hrest := (Code.routine_suffix _ _ _ _ _).trans hcode
    simp only [Code.routine, append_assoc, cons_append, nil_append] at hcode
    refine .of_stack_le fun hle => .call rest ?_ hcode ?_ hrest ?_
    · simp only [length_cons, length_append]
      omega
    · rw [hpassed, hargs.length_eq, length_map]
      exact hemitted.takes
    have hact := hemitted.activation henv hchain hglobals hst hargs
      (suffix_cons (Int64.ofNat fp) S) (by simp only [length_cons] at hle ⊢; omega)
      (Int64.ofNat (Line.place W.lines k))
    rw [invoke]
    refine evalDecls_sim ih hds hact ?_ (eval_grows r.body) fun env' st' vs' hvs' hact' => ?_
    · simp only [length_cons, length_append]
      omega
    obtain ⟨got, hgot, hsub⟩ := Typing.conforms_quiet hquiet hwrong
      (Expr.typeOf_bind_ne_incomplete hact'.site W.complete r.body)
    refine .after (Expr.sim ih r.body _ _ hact'.toFramed hgot ?_) fun w st'' _ hw =>
      ⟨hw.subtype hsub, fun ra tm => ?_⟩
    · simp only [length_cons, length_append]
      omega
    · exact .exit (by simpa using hvs') (by simpa using hargs.length_eq) (.refl ⟨_, _, rfl⟩)

end Foolscap
