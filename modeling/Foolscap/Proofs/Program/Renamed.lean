import Foolscap.Proofs.Program.Total
import Foolscap.Proofs.Tree.Readings
import Foolscap.Proofs.Typing.Renamed

/-!
# Compiling renamed programs

The compiler does not look at how names are spelled: a program and a renamed one have the same
code, or errors at the same places.

## Design Notes

A renaming that keeps the names of a program keeps the program, and so the type of the program.  A
renaming can keep these names and no other ones, so only names of the program occur in its type.
-/

namespace Foolscap

open List

variable {r : Text → Text}

/-! ### Code -/

mutual

/-- The code has no names in it: it uses offsets and levels, which a renaming leaves alone. -/
theorem Expr.code_rename : ∀ (e : Expr) (n : Nat), (e.rename r).code n = e.code n
  | .missing, _ | .int _ _, _ | .bool _ _, _ | .null _, _ => rfl
  | .binary _ op left right, n => by
    cases op <;> simp only [Expr.rename, Expr.code, left.code_rename, right.code_rename]
  | .not _ e, n | .print _ e, n => by simp only [Expr.rename, Expr.code, e.code_rename]
  | .cond _ test yes no, n => by
    simp only [Expr.rename, Expr.code, test.code_rename, yes.code_rename, no.code_rename]
  | .id _ _ use, n => by cases use <;> rfl
  | .call _ _ as use, n => by
    simp only [Expr.rename, Expr.code, codeArgsLastFirst_rename as]
    cases use <;> rfl
  | .new _ _ as entry, n => by
    simp only [Expr.rename, Expr.code, codeArgs_rename as, length_renameArgs]
    cases entry <;> rfl
  | .send _ _ _ as use target, n => by
    simp only [Expr.rename, Expr.code, codeArgsLastFirst_rename as]
    cases use <;> cases target <;> rfl

theorem codeArgs_rename : ∀ (es : List Expr) (n : Nat), codeArgs (renameArgs r es) n = codeArgs es n
  | [], _ => rfl
  | e :: es, n => by simp only [renameArgs, codeArgs, e.code_rename, codeArgs_rename es]

theorem codeArgsLastFirst_rename : ∀ (es : List Expr) (n : Nat),
    codeArgsLastFirst (renameArgs r es) n = codeArgsLastFirst es n
  | [], _ => rfl
  | e :: es, n => by
    simp only [renameArgs, codeArgsLastFirst, e.code_rename, codeArgsLastFirst_rename es]

end

mutual

/-- What is missing for code is missing whatever the names are. -/
theorem Expr.gap?_rename : ∀ e : Expr, (e.rename r).gap? = e.gap?
  | .missing | .int _ _ | .bool _ _ | .null _ => rfl
  | .binary _ op left right => by
    cases op <;> simp only [Expr.rename, Expr.gap?, left.gap?_rename, right.gap?_rename]
  | .not _ e | .print _ e => by simp only [Expr.rename, Expr.gap?, e.gap?_rename]
  | .cond _ test yes no => by
    simp only [Expr.rename, Expr.gap?, test.gap?_rename, yes.gap?_rename, no.gap?_rename]
  | .id _ _ use => by simp only [Expr.rename, Expr.gap?, Option.isSome_map]
  | .call _ _ as use => by
    simp only [Expr.rename, Expr.gap?, gapLastFirst?_rename as, Option.isSome_map]
  | .new _ _ as entry => by
    simp only [Expr.rename, Expr.gap?, gapArgs?_rename as, Option.isSome_map]
  | .send _ _ _ as use target => by
    simp only [Expr.rename, Expr.gap?, gapLastFirst?_rename as, Option.isSome_map]

theorem gapArgs?_rename : ∀ es : List Expr, gapArgs? (renameArgs r es) = gapArgs? es
  | [] => rfl
  | e :: es => by simp only [renameArgs, gapArgs?, e.gap?_rename, gapArgs?_rename es]

theorem gapLastFirst?_rename : ∀ es : List Expr, gapLastFirst? (renameArgs r es) = gapLastFirst? es
  | [] => rfl
  | e :: es => by simp only [renameArgs, gapLastFirst?, e.gap?_rename, gapLastFirst?_rename es]

end

mutual

theorem Decl.gap?_rename : ∀ d : Decl, (d.rename r).gap? = d.gap?
  | .var v => v.value.gap?_rename
  | .fn f => f.gap?_rename
  | .cls c => c.gap?_rename

theorem Routine.gap?_rename : ∀ f : Routine, (f.rename r).gap? = f.gap?
  | ⟨_, _, _, _, decls, body⟩ => by
    simp only [Routine.rename, Routine.gap?, gapDecls?_rename decls, body.gap?_rename]

theorem ClassDecl.gap?_rename : ∀ c : ClassDecl, (c.rename r).gap? = c.gap?
  | ⟨_, _, _, _, methods, _, _⟩ => gapMethods?_rename methods

theorem gapDecls?_rename : ∀ ds : List Decl, gapDecls? (renameDecls r ds) = gapDecls? ds
  | [] => rfl
  | d :: ds => by simp only [renameDecls, gapDecls?, d.gap?_rename, gapDecls?_rename ds]

theorem gapMethods?_rename : ∀ ms : List Method, gapMethods? (renameMethods r ms) = gapMethods? ms
  | [] => rfl
  | ⟨f, _⟩ :: ms => by simp only [renameMethods, gapMethods?, f.gap?_rename, gapMethods?_rename ms]

end

theorem Program.gap?_rename (p : Program) : (p.rename r).gap? = p.gap? := by
  have hclasses : ∀ cs : List ClassDecl,
      gapClasses? (cs.map (ClassDecl.rename r)) = gapClasses? cs := by
    intro cs
    induction cs with
    | nil => rfl
    | cons c cs ih => simp only [map_cons, gapClasses?, c.gap?_rename, ih]
  simp only [Program.gap?, Program.rename, hclasses, gapDecls?_rename, Expr.gap?_rename]

/-- What is generated, with other names of classes. -/
def Emitter.rename (r : Text → Text) (g : Emitter) : Emitter :=
  { g with dispatch := g.dispatch.rename r id }

theorem Emitter.expr_rename (g : Emitter) (e : Expr) :
    (g.rename r).expr (e.rename r) = ((g.expr e).1, (g.expr e).2.rename r) := by
  simp only [Emitter.expr, Emitter.rename, Expr.code_rename]

theorem Emitter.takeRoutine_rename (g : Emitter) :
    (g.rename r).takeRoutine = (g.takeRoutine.1, g.takeRoutine.2.rename r) := rfl

theorem length_renameDecls (ds : List Decl) : (renameDecls r ds).length = ds.length := by
  induction ds with
  | nil => rfl
  | cons d ds ih => rw [renameDecls, length_cons, ih, length_cons]

theorem IsRenaming.inherited (h : IsRenaming r) (g : Emitter) (super : Option Text) :
    (g.rename r).inherited (super.map r) = g.inherited super := by
  cases super with
  | none => rfl
  | some super =>
    have hget : (g.rename r).dispatch.get? (r super) = (g.dispatch.get? super).map id :=
      h.get? _ _ _
    rw [Option.map_some, Emitter.inherited, Emitter.inherited, hget, Option.map_id_fun, id]

mutual

theorem IsRenaming.codeDecl (h : IsRenaming r) : ∀ (d : Decl) (g : Emitter),
    (d.rename r).code (g.rename r) = ((d.code g).1, (d.code g).2.rename r)
  | .var v, g => g.expr_rename v.value
  | .fn f, g => by
    simp only [Decl.rename, Decl.code, Emitter.takeRoutine_rename, h.emit f]
  | .cls c, g => h.codeClass c g

theorem IsRenaming.emit (h : IsRenaming r) : ∀ (f : Routine) (l : Label) (g : Emitter),
    (f.rename r).emit l (g.rename r) = (f.emit l g).rename r
  | ⟨_, _, _, params, decls, body⟩, l, g => by
    simp only [Routine.rename, Routine.emit, h.codeDecls decls, Emitter.expr_rename,
      length_renameDecls, length_map]
    rfl

theorem IsRenaming.codeClass (h : IsRenaming r) : ∀ (c : ClassDecl) (g : Emitter),
    (c.rename r).code (g.rename r) = ((c.code g).1, (c.code g).2.rename r)
  | ⟨_, name, super, _, methods, _, _⟩, g => by
    simp only [ClassDecl.rename, ClassDecl.code, h.inherited, h.emitMethods methods]
    simp only [Emitter.rename, h.put]
    rfl

theorem IsRenaming.codeDecls (h : IsRenaming r) : ∀ (ds : List Decl) (g : Emitter),
    Foolscap.codeDecls (g.rename r) (renameDecls r ds) =
      ((Foolscap.codeDecls g ds).1, (Foolscap.codeDecls g ds).2.rename r)
  | [], g => by simp only [renameDecls, Foolscap.codeDecls]
  | d :: ds, g => by simp only [renameDecls, Foolscap.codeDecls, h.codeDecl d, h.codeDecls ds]

theorem IsRenaming.emitMethods (h : IsRenaming r) : ∀ (ms : List Method) (table : List Slot)
    (g : Emitter), Foolscap.emitMethods (g.rename r) table (renameMethods r ms) =
      ((Foolscap.emitMethods g table ms).1, (Foolscap.emitMethods g table ms).2.rename r)
  | [], table, g => by simp only [renameMethods, Foolscap.emitMethods]
  | ⟨f, _⟩ :: ms, table, g => by
    simp only [renameMethods, Foolscap.emitMethods, Emitter.takeRoutine_rename, h.emit f,
      h.emitMethods ms]

end

/-- A renamed program has the same code. -/
theorem IsRenaming.code (h : IsRenaming r) (p : Program) :
    ((p.rename r).code {}).lines = (p.code {}).lines := by
  have hclasses : ∀ (cs : List ClassDecl) (g : Emitter),
      codeClasses (g.rename r) (cs.map (ClassDecl.rename r)) =
        ((codeClasses g cs).1, (codeClasses g cs).2.rename r) := by
    intro cs
    induction cs with
    | nil => exact fun _ => rfl
    | cons c cs ih =>
      intro g
      simp only [map_cons, codeClasses, h.codeClass c, ih]
  have hlet : (p.rename r).hasLet = p.hasLet := by
    rw [Program.hasLet, Program.hasLet, Program.rename, isEmpty_map]
    cases p.decls <;> rfl
  have hfirst : codeClasses {} (p.rename r).classes =
      ((codeClasses {} p.classes).1, (codeClasses {} p.classes).2.rename r) := hclasses p.classes {}
  have hempty : (p.rename r).classes.isEmpty = p.classes.isEmpty := isEmpty_map
  have hdecls : ∀ g : Emitter, Foolscap.codeDecls (g.rename r) (p.rename r).decls = _ :=
    h.codeDecls p.decls
  have hbody : ∀ g : Emitter, (g.rename r).expr (p.rename r).body = _ :=
    fun g => g.expr_rename p.body
  simp only [Generated.lines, Program.code, hlet, hfirst, hempty, hdecls, hbody]
  rfl

/-! ### Analysis -/

theorem Diagnostic.place_rename (d : Diagnostic) : (d.rename r).place = d.place := by
  obtain ⟨pos, cause⟩ := d
  cases cause <;> rfl

/-- The analysis of a renamed program comes to the renamed program and its renamed type, or to
errors at the same places. -/
theorem IsRenaming.analyse (h : IsRenaming r) (p : Program) :
    (p.rename r).analyse.value.program = p.analyse.value.program.map (Program.rename r) ∧
      (p.rename r).analyse.value.broken = p.analyse.value.broken ∧
      (p.rename r).analyse.value.ty = p.analyse.value.ty.map (Ty.rename r) ∧
      (p.rename r).analyse.value.errors.map Diagnostic.place =
        p.analyse.value.errors.map Diagnostic.place := by
  have hresolve : (p.rename r).resolve {} = (p.resolve {}).rename r := h.resolve {} p
  rw [Program.analyse, Program.analyse, hresolve]
  generalize p.resolve {} = x
  have hempty : (x.rename r).errors.isEmpty = x.errors.isEmpty := isEmpty_map
  have hplaces : (x.rename r).errors.map Diagnostic.place = x.errors.map Diagnostic.place := by
    rw [Resolution.rename, map_map]
    exact map_congr_left fun d _ => d.place_rename
  have hcheck : Checked.Alike r (x.program.check x.context.supers)
      ((x.rename r).program.check (x.rename r).context.supers) := h.check _ _
  have hbroken : (x.rename r).broken = x.broken := rfl
  simp only [hbroken, hempty]
  generalize (x.rename r).program.check (x.rename r).context.supers = c' at hcheck ⊢
  generalize x.program.check x.context.supers = c at hcheck ⊢
  obtain ⟨hty, herrors, hbroken'⟩ := hcheck
  have hempty' : c'.errors.isEmpty = c.errors.isEmpty := by
    rw [← isEmpty_map (f := Diagnostic.place), herrors, isEmpty_map]
  rw [hbroken', hempty', hty]
  cases x.broken with
  | true => exact ⟨rfl, rfl, rfl, rfl⟩
  | false =>
    cases x.errors.isEmpty with
    | false => exact ⟨rfl, rfl, rfl, hplaces⟩
    | true =>
      cases c.broken with
      | true => exact ⟨rfl, rfl, rfl, rfl⟩
      | false =>
        cases c.errors.isEmpty with
        | false => exact ⟨rfl, rfl, rfl, herrors⟩
        | true => exact ⟨rfl, rfl, rfl, rfl⟩

/-! ### Programs that were read from a text -/

/-- A name that a node holds is written there, or it is one in a type. -/
theorem Node.mem_names {n : Node} {name : Text} (h : name ∈ n.names) :
    (∃ x ∈ n.mentions, x.name = name) ∨ name ≠ [] := by
  have hentry : ∀ {e : Option Entry}, name ∈ Entry.names e → name ≠ [] := by
    intro e he
    obtain ⟨e, -, hname⟩ := mem_flatMap.mp he
    exact Ty.ne_nil_of_mem_names hname
  cases n with
  | program _ => cases h
  | cls c =>
    rcases mem_cons.mp h with rfl | h
    · exact .inl ⟨_, mem_cons_self, rfl⟩
    rcases mem_append.mp h with h | h
    · exact .inl ⟨⟨.super, name⟩, mem_cons_of_mem _ (mem_map_of_mem h), rfl⟩
    · exact .inr ((mem_append.mp h).elim hentry hentry)
  | field _ | method _ | fn _ | var _ | par _ =>
    rcases mem_cons.mp h with rfl | h
    · exact .inl ⟨_, mem_cons_self, rfl⟩
    · exact .inr (Ty.ne_nil_of_mem_names h)
  | expr e =>
    cases e with
    | id _ _ _ | call _ _ _ _ | new _ _ _ _ =>
      rcases mem_cons.mp h with rfl | h
      · exact .inl ⟨_, mem_cons_self, rfl⟩
      · exact .inr (hentry h)
    | send _ receiver method _ _ _ =>
      rcases mem_cons.mp h with rfl | h
      · exact .inl ⟨_, mem_cons_self, rfl⟩
      rcases mem_cons.mp h with rfl | h
      · exact .inl ⟨_, mem_cons_of_mem _ mem_cons_self, rfl⟩
      · exact .inr ((mem_append.mp h).elim hentry hentry)
    | missing | binary | not | cond | print | int | bool | null => cases h

namespace Program

variable {src : Text} {p : Program}

theorem nil_notMem_names (h : parse src = .ok p) : [] ∉ p.names := by
  intro hnil
  obtain ⟨n, hn, hname⟩ := mem_flatMap.mp hnil
  rcases Node.mem_names hname with ⟨x, hx, hempty⟩ | hne
  · exact (IsReading.of_parse h (.inl rfl)).name_ne_nil hn hx hempty
  · exact hne rfl

/-- A renaming of the names of a program may be taken for one of all texts. -/
theorem rename_extend (b : UInt8) : p.rename (Text.extend p.names r b) = p.rename r :=
  rename_congr fun _ hn => Text.extend_of_mem hn

/-- The type of a program is renamed like the program, since only names of the program occur in
it. -/
theorem ty_rename (h : ∀ b, IsRenaming (Text.extend p.names r b)) :
    (p.rename r).analyse.value.ty = p.analyse.value.ty.map (Ty.rename r) := by
  have hty : ∀ b, (p.rename r).analyse.value.ty =
      p.analyse.value.ty.map (Ty.rename (Text.extend p.names r b)) := by
    intro b
    rw [← rename_extend b]
    exact ((h b).analyse p).2.2.1
  have hsame := (hty 0).symm.trans (hty 1)
  rw [hty 0]
  cases ht : p.analyse.value.ty with
  | none => rfl
  | some t =>
    rw [ht] at hsame
    have hnames := (Ty.rename_eq_rename_iff t).mp (Option.some.inj hsame)
    have hr : t.rename (Text.extend p.names r 0) = t.rename r :=
      (Ty.rename_eq_rename_iff t).mpr fun n hn =>
        Text.extend_of_mem (Text.mem_of_extend_eq (Ty.ne_nil_of_mem_names hn) (hnames n hn))
    rw [Option.map_some, Option.map_some, hr]

/-- **The compiler does not look at how names are spelled.**  If all names in a program are
replaced, one to one and by names that are not empty, then both programs are compiled or none is.
If they are, they have the same assembly, and the type of one is the renamed type of the other.  If
they are not, there are as many diagnostics for one as for the other, of the same phases and at the
same places. -/
theorem compile_rename (hp : parse src = .ok p)
    (hinj : ∀ m ∈ p.names, ∀ n ∈ p.names, r m = r n → m = n) (hne : ∀ n ∈ p.names, r n ≠ []) :
    (∃ c c', p.compile.value = .ok c ∧ (p.rename r).compile.value = .ok c' ∧
        c'.assembly = c.assembly ∧ c'.ty = c.ty.map (Ty.rename r)) ∨
      ∃ ds ds', p.compile.value = .error (.rejected ds) ∧
        (p.rename r).compile.value = .error (.rejected ds') ∧
        ds'.map Diagnostic.place = ds.map Diagnostic.place := by
  have hrenaming : ∀ b, IsRenaming (Text.extend p.names r b) := fun b =>
    Text.isRenaming_extend (nil_notMem_names hp) hinj hne
  obtain ⟨p', -, -, hp', -, -, -, hwhole⟩ | ⟨d, hd, -⟩ := parse_cases src
  swap
  · cases hd.symm.trans hp
  obtain rfl : p' = p := Except.ok.inj (hp'.symm.trans hp)
  obtain ⟨hprogram, hunbroken, hcases⟩ := analyse_cases (plain_of_parse hp) hwhole
  obtain ⟨hprogram', hunbroken', -, herrors⟩ := (hrenaming 0).analyse p'
  rw [rename_extend] at hprogram' hunbroken' herrors
  rw [hprogram, Option.map_some] at hprogram'
  rw [hunbroken] at hunbroken'
  rcases hcases with hreported | ⟨hclean, -, hgap, -⟩
  · have hsome : (p'.rename r).analyse.value.errors ≠ [] := by
      intro hnil
      rw [hnil, List.map_nil, eq_comm, List.map_eq_nil_iff] at herrors
      exact hreported.ne_nil herrors
    exact .inr ⟨_, _, Analysis.generate_of_errors hprogram hunbroken hreported.ne_nil,
      Analysis.generate_of_errors hprogram' hunbroken' hsome, herrors⟩
  · have hclean' : (p'.rename r).analyse.value.errors = [] := by
      rwa [hclean, List.map_nil, List.map_eq_nil_iff] at herrors
    refine .inl ⟨_, _, Analysis.generate_of_clean hprogram hunbroken hclean hgap,
      Analysis.generate_of_clean hprogram' hunbroken' hclean' ((gap?_rename _).trans hgap), ?_,
      ty_rename hrenaming⟩
    exact congrArg Line.textOf ((hrenaming 0).code _)

/-- A program where a variable of the program and a field of a class have the same name. -/
def homonymSource : Text :=
  "let class A (x:int) { fun m:A (y:A) y; } " ++
  "class B extends A (x:bool) { fun m:B (y:A) new B(x <= 3); } " ++
  "var x:A = new B(true); in x.m(x);"

/-- A type that is shown as the name `A` is that of the objects of a class. -/
theorem eq_ref_of_display {t : Ty} (h : t.display = Text.ofString "A") : t = .ref "A" := by
  have hname : Text.ofString "A" = [65] := by decide
  have hopen : Text.ofString "(" = [40] := by decide
  have hclass : Text.ofString "class(" = 99 :: Text.ofString "lass(" := by decide
  cases t with
  | ref name => exact congrArg Ty.ref h
  | arrow params ret => simp [Ty.display, hname, hopen] at h
  | cls origin fields methods => simp [Ty.display, hname, hclass] at h
  | missing shape =>
    rw [Ty.display] at h
    exact absurd h (by decide)
  | _ => exact absurd h (by decide)

/-- Exchange the names `A` and `x`. -/
def exchange (n : Text) : Text := if n = "A" then "x" else if n = "x" then "A" else n

/-- The variable and the fields may take the name of the class, and the class theirs: the assembly
is the same, and the type is the class under its new name. -/
theorem compile_rename_homonym : ∃ p c c', parse homonymSource = .ok p ∧
    p.compile.value = .ok c ∧ (p.rename exchange).compile.value = .ok c' ∧
    c'.assembly = c.assembly ∧ c.ty = some (.ref "A") ∧ c'.ty = some (.ref "x") := by
  have hback : ∀ n, exchange (exchange n) = n := by
    intro n
    unfold exchange
    split <;> simp_all
  obtain ⟨p, hp, hany⟩ := exists_ok_of_any (x := parse homonymSource)
    (q := fun p => p.compile.value.toOption.any fun c =>
      c.ty.any fun t => t.display = Text.ofString "A")
    (by decide +kernel)
  obtain ⟨c, hc, hclass⟩ := exists_ok_of_any hany
  have hty : c.ty = some (.ref "A") := by
    cases ht : c.ty with
    | none =>
      rw [ht] at hclass
      cases hclass
    | some t =>
      rw [ht, Option.any_some] at hclass
      rw [eq_ref_of_display (of_decide_eq_true hclass)]
  have hinj : ∀ m ∈ p.names, ∀ n ∈ p.names, exchange m = exchange n → m = n :=
    fun m _ n _ h => by rw [← hback m, h, hback]
  have hne : ∀ n ∈ p.names, exchange n ≠ [] := by
    intro n hn h
    have hnil : n = [] := by rw [← hback n, h]; rfl
    exact nil_notMem_names hp (hnil ▸ hn)
  obtain ⟨c₁, c', hc₁, hc', hassembly, hty'⟩ | ⟨ds, -, hds, -⟩ := compile_rename hp hinj hne
  · obtain rfl : c₁ = c := Except.ok.inj (hc₁.symm.trans hc)
    exact ⟨p, c₁, c', hp, hc, hc', hassembly, hty, by rw [hty', hty]; rfl⟩
  · cases hds.symm.trans hc

end Program

end Foolscap
