import Foolscap.Proofs.Program.Correctness
import Foolscap.Proofs.Scope.Sane
import Foolscap.Proofs.Tree.Derived

/-!
# The compiler is total

Whatever the text is, the compiler rejects it with diagnostics of one phase, or it compiles it to
code that can be assembled.  Nothing is ever missing from the trees that the steps of the compiler
hand on to each other.
-/

namespace Foolscap

/-- Diagnostics as one step of the compiler reports them: there are some, they are of one phase, and
a syntax error stands alone.  Fuel did not run out. -/
structure Diagnostic.Reported (ds : List Diagnostic) : Prop where
  ne_nil : ds ≠ []
  phase : ∃ phase, (∀ d ∈ ds, d.phase = phase) ∧ (phase = .parsing → ds.length = 1)
  fuel : ∀ d ∈ ds, d.cause ≠ .parsing .outOfFuel

namespace Diagnostic.Reported

theorem single {d : Diagnostic} (h : Parser.IsMistake d) : Reported [d] := by
  obtain ⟨e, hcause, hfuel⟩ := h
  refine ⟨List.cons_ne_nil _ _, ⟨.parsing, fun d' hd' => ?_, fun _ => rfl⟩, fun d' hd' => ?_⟩
  · rw [List.mem_singleton.mp hd', Diagnostic.phase, hcause]
    rfl
  · rw [List.mem_singleton.mp hd', hcause]
    exact fun h => hfuel (Cause.parsing.inj h)

theorem of_phase {ds : List Diagnostic} {phase : Phase} (hne : ds ≠ [])
    (h : ∀ d ∈ ds, d.phase = phase) (hphase : phase ≠ .parsing) : Reported ds := by
  refine ⟨hne, ⟨phase, h, fun hp => absurd hp hphase⟩, fun d hd hcause => hphase ?_⟩
  rw [← h d hd, Diagnostic.phase, hcause]
  rfl

end Diagnostic.Reported

namespace Program

variable {p : Program} (hplain : p.Plain) (hwhole : p.Whole)

/-! ### The steps of the compiler -/

theorem sane_atClasses : atClasses.Sane where
  complete := by
    refine ⟨fun name i e hl => ?_, fun _ _ h => nomatch h⟩
    cases (Scopes.locate_singleton.mp hl).2
  unbroken := rfl
  scoping _ hd := absurd hd List.not_mem_nil

include hplain hwhole

theorem checkable_walkClasses :
    p.walkClasses.2.Checkable (fun h => p.walkClasses.1.flatMap (ClassDecl.check h))
      (gapClasses? p.walkClasses.1) :=
  checkableClasses sane_atClasses Context.Described.empty rfl hplain.1 hwhole.classes

theorem checkable_walkDecls :
    p.walkDecls.2.Checkable (fun h => checkDecls h p.walkDecls.1) (gapDecls? p.walkDecls.1) :=
  checkableDecls p.decls hplain.2 hwhole.decls (checkable_walkClasses hplain hwhole).sane

/-- The walk over a program makes sense: nothing is missing, and it reports scope errors. -/
theorem sane_walk :
    (p.resolve {}).broken = false ∧ ∀ d ∈ (p.resolve {}).errors, d.phase = .scoping := by
  have h := (checkable_walkDecls hplain hwhole).sane.expr p.body
  exact ⟨h.unbroken, h.scoping⟩

variable (hclean : (p.resolve {}).errors = [])

include hclean

omit hwhole in
theorem walks_clean : p.walkClasses.2.errors = [] ∧ p.walkDecls.2.errors = [] := by
  have hdecls : p.walkDecls.2.errors = [] := (List.append_eq_nil_iff.mp hclean).1
  exact ⟨(resolveDecls_kept p.decls hplain.2 _).clean hdecls, hdecls⟩

/-- The check of a program without scope errors ends with type errors only. -/
theorem ill_halts : Typing.Ill p.halts := by
  obtain ⟨hclasses, hdecls⟩ := walks_clean hplain hclean
  have hwalk := checkable_walkDecls hplain hwhole
  exact Typing.ill_append
    (Typing.ill_append ((checkable_walkClasses hplain hwhole).ill hclasses _) (hwalk.ill hdecls _))
    ((Expr.typeOf_bind_ends hwalk.sane.complete p.body).halts hwhole.body)

/-- A program without scope errors has no gap. -/
theorem gap?_resolved : p.resolved.gap? = none := by
  obtain ⟨hclasses, hdecls⟩ := walks_clean hplain hclean
  have hwalk := checkable_walkDecls hplain hwhole
  have hbody : p.boundBody.gap? = none := hwalk.sane.gap?_expr hwhole.body hclean
  rw [resolved_eq, gap?, (checkable_walkClasses hplain hwhole).gap hclasses, hwalk.gap hdecls,
    hbody]
  rfl

/-- A program without errors has a type. -/
theorem exists_ty (htyped : Typing.errors p.halts = []) :
    ∃ t, (p.boundBody.typeOf p.context.supers).toOption = some t ∧ t.isMissing = false := by
  have hnil := (ill_halts hplain hwhole hclean).eq_nil htyped
  have hbody : Typing.halts (p.boundBody.typeOf p.context.supers) = [] :=
    (List.append_eq_nil_iff.mp hnil).2
  cases h : p.boundBody.typeOf p.context.supers with
  | error e =>
    rw [h] at hbody
    cases hbody
  | ok t => exact ⟨t, rfl, Expr.not_isMissing_typeOf h⟩

omit hclean

/-- The analysis of a program finds errors of one phase, or it finds its type. -/
theorem analyse_cases :
    p.analyse.value.program = some p.resolved ∧ p.analyse.value.broken = false ∧
      (Diagnostic.Reported p.analyse.value.errors ∨
        p.analyse.value.errors = [] ∧ p.Accepted ∧ p.resolved.gap? = none ∧
          ∃ t, p.analyse.value.ty = some t ∧ t.isMissing = false) := by
  obtain ⟨hunbroken, hscoping⟩ := sane_walk hplain hwhole
  unfold Program.analyse
  by_cases hclean : (p.resolve {}).errors = []
  · have hill := ill_halts hplain hwhole hclean
    have hchecked : (p.resolve {}).program.check (p.resolve {}).context.supers =
        ⟨(p.boundBody.typeOf p.context.supers).toOption, Typing.errors p.halts,
          Typing.skipped p.halts, Typing.anyBroken p.halts⟩ := rfl
    simp only [hunbroken, hclean, hchecked, hill.anyBroken]
    by_cases htyped : Typing.errors p.halts = []
    · obtain ⟨t, ht, hthere⟩ := exists_ty hplain hwhole hclean htyped
      have haccepted : p.Accepted :=
        ⟨hplain, hclean, Typing.quiet_of_errors htyped hill.anyBroken⟩
      simp only [htyped]
      exact ⟨rfl, rfl, .inr ⟨rfl, haccepted, gap?_resolved hplain hwhole hclean, t, ht, hthere⟩⟩
    · have hsome : !(Typing.errors p.halts).isEmpty := by simpa using htyped
      simp only [hsome]
      exact ⟨rfl, rfl, .inl (.of_phase htyped hill.phase nofun)⟩
  · have hsome : !(p.resolve {}).errors.isEmpty := by simpa using hclean
    simp only [hunbroken, hsome]
    exact ⟨rfl, rfl, .inl (.of_phase hclean hscoping nofun)⟩

end Program

namespace Analysis

variable {a : Analysis} {p : Program} (hp : a.program = some p) (hb : a.broken = false)

include hp hb

theorem generate_of_errors (he : a.errors ≠ []) :
    a.generate.value = .error (.rejected a.errors) := by
  have hsome : !a.errors.isEmpty := by simpa using he
  simp only [generate, hp, hb, hsome]
  rfl

theorem generate_of_clean (he : a.errors = []) (hgap : p.gap? = none) :
    a.generate.value = .ok ⟨p, a.context, a.ty, p.code {}⟩ := by
  simp only [generate, hp, hb, he, hgap]
  rfl

end Analysis

/-- **The compiler is total.**  A text is rejected, with the diagnostics that its analysis reports:
there are some, all of one phase, and just one if it is a syntax error.  Or it is compiled: it has a
type, which is not missing, its analysis reports no diagnostics and the same type, and its assembly
is assembled, since every label that it uses is defined, none is defined twice and no operand is
empty.  The tree never lacks anything, neither for the analysis nor for the code, and no list of
types or slots is indexed outside its bounds.  Lengths are those that a word can
hold. -/
theorem compile_total (source : Text) (hsource : source.length < Word.limit) :
    (analyse source).value.broken = false ∧
      ((∃ ds, (compile source).value = .error (.rejected ds) ∧ Diagnostic.Reported ds ∧
          (analyse source).value.errors = ds) ∨
        ∃ c t x, (compile source).value = .ok c ∧ c.ty = some t ∧ t.isMissing = false ∧
          Line.Linkable c.code.lines ∧ Executable.assemble c.assembly = .ok x ∧
          (analyse source).value.errors = [] ∧ (analyse source).value.ty = some t) := by
  rcases Program.parse_cases source with ⟨p, -, -, hp, -, -, -, hwhole⟩ | ⟨d, hd, hmistake⟩
  · have hanalyse : analyse source = p.analyse := by rw [analyse, hp]
    have hcompile : (compile source).value = p.analyse.value.generate.value := by
      rw [compile, hp]
      rfl
    obtain ⟨hprogram, hunbroken, hcases⟩ :=
      Program.analyse_cases (Program.plain_of_parse hp) hwhole
    rw [hanalyse, hcompile]
    refine ⟨hunbroken, ?_⟩
    rcases hcases with hreported | ⟨hnone, haccepted, hgap, t, ht, hthere⟩
    · exact .inl ⟨_, Analysis.generate_of_errors hprogram hunbroken hreported.ne_nil, hreported,
        rfl⟩
    · have hlinkable := haccepted.linkable
        (Nat.lt_of_le_of_lt (Program.weight_le_of_parse hp) hsource)
      obtain ⟨x, hx, -⟩ := Line.assemble_textOf hlinkable
      exact .inr ⟨_, t, x, Analysis.generate_of_clean hprogram hunbroken hnone hgap, ht, hthere,
        hlinkable, hx, hnone, ht⟩
  · rw [compile, analyse, hd]
    exact ⟨rfl, .inl ⟨[d], rfl, .single hmistake, rfl⟩⟩

/-- A program with errors in the names of classes, objects and variables, and with an ill-typed
variable. -/
def muddledSource : Text :=
  "let class A (n:int) { fun m:B (k:int) n; } class A () { fun h:int () 1; } " ++
  "var x:int = true; in y.m(x, z);"

/-- Four scope errors are reported and no type error, and a program without errors has code. -/
theorem compile_total_muddled :
    (∃ ds, (compile muddledSource).value = .error (.rejected ds) ∧ Diagnostic.Reported ds ∧
      (analyse muddledSource).value.errors = ds ∧ ds.length = 4) ∧
    ∃ c t x, (compile factorialSource).value = .ok c ∧ c.ty = some t ∧ t.display = "int" ∧
      Line.Linkable c.code.lines ∧ Executable.assemble c.assembly = .ok x := by
  have hmuddled : (analyse muddledSource).value.errors.length = 4 := by decide +kernel
  have hty : (analyse factorialSource).value.ty.map Ty.display = some "int" := by decide +kernel
  constructor
  · obtain ⟨-, ⟨ds, hcompile, hreported, hds⟩ | ⟨c, t, x, -, -, -, -, -, hnone, -⟩⟩ :=
      compile_total muddledSource (by decide +kernel)
    · exact ⟨ds, hcompile, hreported, hds, hds ▸ hmuddled⟩
    · rw [hnone] at hmuddled
      cases hmuddled
  · have hclean : (analyse factorialSource).value.errors.length = 0 := by decide +kernel
    obtain ⟨-, ⟨ds, -, hreported, hds⟩ | ⟨c, t, x, hcompile, ht, -, hlinkable, hx, -, ht'⟩⟩ :=
      compile_total factorialSource (by decide +kernel)
    · exact absurd (List.eq_nil_of_length_eq_zero (hds ▸ hclean)) hreported.ne_nil
    · rw [ht'] at hty
      exact ⟨c, t, x, hcompile, ht, Option.some.inj hty, hlinkable, hx⟩

end Foolscap
