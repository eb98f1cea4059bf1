import Foolscap.Compile
import Foolscap.Proofs.Class.Known
import Foolscap.Proofs.Class.Tables
import Foolscap.Proofs.Tree.Parsed

/-!
# Accepted programs

A program that the compiler accepts, with everything that is known of it: it was written with all
its types, its names were resolved and its types checked without errors, and its code can be
assembled and loaded.
-/

namespace Foolscap

open List

namespace Program

variable (p : Program)

/-! ### Stages -/

/-- The walk before the classes of a program. -/
def atClasses : Resolver := { scopes := ⟨[[]], {}⟩ }

/-- The classes with everything in them resolved, and the walk after them. -/
def walkClasses : List ClassDecl × Resolver := resolveClasses atClasses p.classes

/-- The declarations with everything in them resolved, and the walk after them. -/
def walkDecls : List Decl × Resolver := resolveDecls p.walkClasses.2 p.decls

/-- The body with everything in it resolved. -/
def boundBody : Expr := p.body.bind p.walkDecls.2.scopes

/-- The program with everything in it resolved. -/
def resolved : Program := (p.resolve {}).program

/-- What is known of the classes. -/
def context : Context := (p.resolve {}).context

/-- The code of the program. -/
def lines : List Line := (p.resolved.code {}).lines

theorem resolved_eq : p.resolved = ⟨p.span, p.walkClasses.1, p.walkDecls.1, p.boundBody⟩ := rfl

/-- The code of the classes, and what was generated with it. -/
def emitClasses : List Line × Emitter := codeClasses {} p.walkClasses.1

/-- The code of the declarations, and what was generated with it. -/
def emitDecls : List Line × Emitter := codeDecls p.emitClasses.2 p.walkDecls.1

/-- The code of the body. -/
def bodyCode : List Line := (p.boundBody.code p.emitDecls.2.nextBranch).1

/-- The code before that of classes: it pushes a word in the place of a return address, and stores
the global frame pointer. -/
def prologue : List Line :=
  (if p.hasLet then [.push 0] else []) ++ if p.classes.isEmpty then [] else Code.saveGlobalFrame

theorem isEmpty_walkClasses : p.walkClasses.1.isEmpty = p.classes.isEmpty := by
  rw [walkClasses]
  cases p.classes <;> rfl

theorem isEmpty_walkDecls : p.walkDecls.1.isEmpty = p.decls.isEmpty := by
  rw [walkDecls]
  cases p.decls with
  | nil => rw [resolveDecls]
  | cons d ds => rw [resolveDecls_cons]; rfl

/-- The code of a program: the dispatch tables of its classes, its declarations and its body, then
its routines. -/
theorem lines_eq : p.lines = p.prologue ++ (p.emitClasses.1 ++ (p.emitDecls.1 ++ (p.bodyCode ++
    .op .halt :: p.emitDecls.2.routines))) := by
  have hprologue : p.prologue = (if p.resolved.hasLet then [.push 0] else []) ++
      if p.resolved.classes.isEmpty then [] else Code.saveGlobalFrame := by
    rw [resolved_eq, hasLet, isEmpty_walkClasses, isEmpty_walkDecls]
    rfl
  rw [hprologue]
  show (_ ++ _ ++ _ ++ _ ++ _ ++ [Line.op .halt]) ++ _ = _
  simp only [append_assoc, singleton_append]
  rfl

/-- What ends the checks of the parts of a program. -/
def halts : List Halt :=
  p.walkClasses.1.flatMap (ClassDecl.check p.context.supers) ++
    checkDecls p.context.supers p.walkDecls.1 ++ Typing.halts (p.boundBody.typeOf p.context.supers)

/-- A program whose names and types have no errors. -/
structure Accepted : Prop where
  plain : p.Plain
  clean : (p.resolve {}).errors = []
  quiet : Typing.Quiet p.halts

end Program

/-- A program that the compiler analyses and finds nothing wrong with. -/
theorem Program.accepted_of_analyse {p : Program} (hplain : p.Plain)
    (hbroken : p.analyse.value.broken = false) (herrors : p.analyse.value.errors = []) :
    p.Accepted := by
  unfold Program.analyse at hbroken herrors
  cases hb : (p.resolve {}).broken with
  | true => simp [hb] at hbroken
  | false =>
    cases he : (p.resolve {}).errors with
    | cons d ds => simp [hb, he] at herrors
    | nil =>
      cases hcb : ((p.resolve {}).program.check (p.resolve {}).context.supers).broken with
      | true => simp [hb, he, hcb] at hbroken
      | false =>
        cases hce : ((p.resolve {}).program.check (p.resolve {}).context.supers).errors with
        | cons d ds => simp [hb, he, hcb, hce] at herrors
        | nil =>
          exact ⟨hplain, he, Typing.quiet_of_errors hce hcb⟩

variable {c : Compilation} {source : Text}

/-- What is compiled was analysed without errors and has no gaps. -/
theorem Analysis.eq_of_generate {a : Analysis} (h : a.generate.value = .ok c) :
    ∃ p, a.program = some p ∧ a.broken = false ∧ a.errors = [] ∧ p.gap? = none ∧
      c = ⟨p, a.context, a.ty, p.code {}⟩ := by
  unfold generate at h
  split at h
  · cases h
  · next p hp =>
    split at h
    · cases h
    · next hbroken =>
      split at h
      · cases h
      · next herrors =>
        split at h
        · cases h
        · next hgap =>
          exact ⟨p, hp, by simpa using hbroken, by simpa using herrors, hgap,
            (Except.ok.inj h).symm⟩

/-- What the compiler accepts was parsed and analysed before. -/
theorem analysis_of_compile (h : (compile source).value = .ok c) :
    ∃ p, Program.parse source = .ok p ∧ p.analyse.value.generate.value = .ok c := by
  rw [compile] at h
  split at h
  · cases h
  · next p hparse => exact ⟨p, hparse, h⟩

/-- What the compiler accepts has no errors, and what it gives is the resolved program, what is
known of its classes, and its code. -/
theorem parsed_of_compile (h : (compile source).value = .ok c) :
    ∃ p, Program.parse source = .ok p ∧ p.Accepted ∧ c.program = p.resolved ∧
      c.context = p.context ∧ c.code = p.resolved.code {} := by
  obtain ⟨p, hparse, hgenerate⟩ := analysis_of_compile h
  obtain ⟨q, hq, hbroken, herrors, -, rfl⟩ := Analysis.eq_of_generate hgenerate
  have haccepted := Program.accepted_of_analyse (Program.plain_of_parse hparse) hbroken herrors
  obtain rfl : q = p.resolved := Option.some.inj (hq.symm.trans p.resolved_analyse.1)
  exact ⟨p, hparse, haccepted, rfl, p.resolved_analyse.2, rfl⟩

/-- What the compiler accepts has no errors, and its code is the code of the program. -/
theorem accepted_of_compile (h : (compile source).value = .ok c) :
    ∃ p, Program.parse source = .ok p ∧ p.Accepted ∧ c.code = p.resolved.code {} := by
  obtain ⟨p, hparse, haccepted, -, -, hcode⟩ := parsed_of_compile h
  exact ⟨p, hparse, haccepted, hcode⟩

theorem ClassDecl.resolve_plain {c : ClassDecl} (hplain : c.Plain) (R : Resolver) :
    ∀ m ∈ (c.resolve R).1.methods, m.routine.Plain := by
  obtain ⟨_, _, _, _, ms, _, _⟩ := c
  rw [ClassDecl.resolve]
  exact resolveMethods_plain ms hplain.2 _ _

theorem resolveClasses_plain {cs : List ClassDecl} (hplain : ∀ c ∈ cs, c.Plain) (R : Resolver) :
    ∀ c ∈ (resolveClasses R cs).1, ∀ m ∈ c.methods, m.routine.Plain := by
  induction cs generalizing R with
  | nil => exact fun c hc => absurd hc not_mem_nil
  | cons c cs ih =>
    intro c' hc'
    rcases mem_cons.mp hc' with rfl | hc'
    · exact ClassDecl.resolve_plain (hplain c mem_cons_self) R
    · exact ih (forall_mem_cons.mp hplain).2 _ c' hc'

namespace Program

/-- The dispatch tables of the classes of a program. -/
def dispatch (p : Program) : Table (List Slot) := p.emitClasses.2.dispatch

/-- A memory for the code of a program and for its data, with limits for its stack and its heap. -/
structure Room (p : Program) where
  size : Nat
  stackLimit : Nat
  heapLimit : Nat
  size_lt : size < Word.limit
  extent_lt : Line.extent p.lines < Word.limit

namespace Accepted

variable {p : Program} (h : p.Accepted)

include h

theorem walkDecls_errors : p.walkDecls.2.errors = [] :=
  (append_eq_nil_iff.mp h.clean).1

theorem walkDecls_kept : p.walkClasses.2.Kept p.walkDecls.2 :=
  resolveDecls_kept p.decls h.plain.2 p.walkClasses.2

theorem walkClasses_errors : p.walkClasses.2.errors = [] :=
  h.walkDecls_kept.clean h.walkDecls_errors

theorem context_eq_walkClasses : p.context = p.walkClasses.2.scopes.context :=
  h.walkDecls_kept.context

theorem plain_methods : ∀ c ∈ p.resolved.classes, ∀ m ∈ c.methods, m.routine.Plain :=
  resolveClasses_plain h.plain.1 atClasses

theorem plain_decls : AllPlain p.resolved.decls :=
  resolveDecls_plain p.decls h.plain.2 p.walkClasses.2

omit h in
/-- The routines of classes come first. -/
theorem classes_suffix : ∃ k, p.emitClasses.2.routines ++ k <:+ p.lines := by
  obtain ⟨k, hk⟩ := codeDecls_isPrefix p.walkDecls.1 p.emitClasses.2
  refine ⟨k, ?_⟩
  rw [hk]
  exact suffix_append _ _

/-- An accepted program in a machine. -/
def loaded (B : p.Room) : Loaded where
  lines := p.lines
  code := (Line.linked p.lines).toArray
  size := B.size
  stackLimit := B.stackLimit
  heapLimit := B.heapLimit
  code_eq := rfl
  marks_nodup := Program.code_marks_nodup h.plain_methods h.plain_decls
  extent_lt := B.extent_lt
  size_lt := B.size_lt
  context := p.context
  shapes := p.shapes
  tables := p.dispatch.map fun row => (row.1, row.2.filterMap id)

/-- What holds of the classes of an accepted program. -/
theorem known (B : p.Room) : ∃ global b,
    (h.loaded B).Known p.emitClasses.2 p.walkClasses.2 global b p.shapes := by
  obtain ⟨k, hk⟩ := classes_suffix (p := p)
  have hquiet := h.quiet
  rw [halts, Typing.quiet_append, Typing.quiet_append] at hquiet
  exact (Loaded.Known.empty (h.loaded B)).resolveClasses h.plain.1 h.walkClasses_errors
    h.context_eq_walkClasses.symm hquiet.1.1 hk

/-- An accepted program in a machine, with what holds of its classes. -/
def world (B : p.Room) : World where
  toLoaded := h.loaded B
  classOK := fun cls info hinfo => by
    obtain ⟨global, b, hknown⟩ := h.known B
    exact hknown.classOK h.context_eq_walkClasses.symm rfl hinfo
  refines := fun cls super hextends => by
    obtain ⟨global, b, hknown⟩ := h.known B
    exact hknown.refines h.context_eq_walkClasses.symm rfl hextends

/-! ### Assembling -/

/-- The dispatch tables of the classes are filled, and their offsets are bounded. -/
theorem tabled : ∃ global, p.emitClasses.2.Tabled p.walkClasses.2 global
      (p.classes.map ClassDecl.weight).sum ∧ (∀ row ∈ p.dispatch, ∀ s ∈ row.2, s.isSome) ∧
    p.dispatch.names = p.classes.map ClassDecl.name ∧
    p.emitClasses.1 = p.dispatch.flatMap fun row => Code.writeTable row.2 := by
  obtain ⟨global, rows, hslots, hcode, hdispatch, hnames, htabled⟩ :=
    Emitter.Tabled.empty.resolveClasses h.plain.1 h.walkClasses_errors
  obtain rfl : p.dispatch = rows := hdispatch
  rw [Nat.zero_add] at htabled
  exact ⟨global, htabled, hslots, hnames, hcode⟩

/-- Every label that is used is marked. -/
theorem refers : ∀ x ∈ p.lines, x.Refers (Line.marks p.lines) := by
  obtain ⟨_, -, hslots, -, hcc⟩ := h.tabled
  obtain ⟨cd, cb, hi, hmain, hclosed, hmarked, hprefix⟩ :=
    Program.code_closed h.plain_methods h.plain_decls
  have hroutines : Line.marks (p.resolved.code {}).routines ⊆ Line.marks p.lines := by
    rw [lines, Generated.lines, Line.marks_append]
    exact subset_append_right _ _
  have hrest : Line.marks ((cd ++ cb) ++ (p.resolved.code {}).routines) ⊆ Line.marks p.lines := by
    rw [lines, Generated.lines, hmain]
    simp only [Line.marks_append]
    intro l hl
    simp only [mem_append] at hl ⊢
    tauto
  have hclosed' : ∀ x ∈ (cd ++ cb) ++ (p.resolved.code {}).routines,
      x.Refers (Line.marks p.lines) := fun x hx => (hclosed.refers x hx).mono hrest
  have hclasses : ∀ x ∈ p.emitClasses.1, x.Refers (Line.marks p.lines) := by
    intro x hx
    obtain ⟨row, hrow, hx⟩ := mem_flatMap.mp (hcc ▸ hx)
    refine Code.writeTable_refers (fun s hs => ?_) x hx
    obtain ⟨l, rfl⟩ := Option.isSome_iff_exists.mp (hslots row hrow s hs)
    obtain ⟨k, hk⟩ := hprefix
    refine ⟨l, hroutines ?_, rfl⟩
    rw [← hk, Line.marks_append]
    exact mem_append_left _ (hmarked row hrow l hs)
  have hunlabelled : ∀ {ls : List Line}, ls.all Line.isUnlabelled →
      ∀ x ∈ ls, x.Refers (Line.marks p.lines) :=
    fun hls x hx => Line.refers_of_isUnlabelled (all_eq_true.mp hls x hx)
  rw [forall_mem_append, forall_mem_append] at hclosed'
  rw [lines, Generated.lines, hmain] at hclosed' hclasses hunlabelled ⊢
  simp only [forall_mem_append]
  refine ⟨⟨⟨⟨⟨⟨?_, ?_⟩, hclasses⟩, hclosed'.1.1⟩, hclosed'.1.2⟩, hunlabelled rfl⟩, hclosed'.2⟩
  · refine hunlabelled ?_
    split <;> rfl
  · refine hunlabelled ?_
    split <;> rfl

/-- Every line can be written. -/
theorem writable (hweight : p.weight < Word.limit) : p.lines.all Line.isWritable := by
  obtain ⟨global, htabled, -⟩ := h.tabled
  have htables := htabled.tables
  have hbelow := htabled.below
  have hroom := htabled.room
  have hsum : (p.classes.map ClassDecl.weight).sum + weightAll p.decls = p.weight := rfl
  have hclasses : p.emitClasses.2.routines.all Line.isWritable :=
    Emitter.Tabled.empty.writes hweight (by omega) h.plain.1 h.walkClasses_errors rfl
  have hroomy : p.walkClasses.2.Roomy p.weight (weightAll p.decls + 0) := by
    refine ⟨⟨fun name i e hl => ?_, fun cls info name e hinfo he =>
      ((htabled.within hinfo).2 name e he).mono (by omega)⟩, by simp [htables], by omega, by omega⟩
    rw [htables, Scopes.locate_singleton] at hl
    exact (htabled.within_global hl.2).mono (by omega)
  obtain ⟨⟨hdecls, hroutines⟩, hafter⟩ := codeDecls_writes hweight p.decls h.plain.2
    p.emitClasses.2 hroomy h.walkDecls_errors
  have hbody := Expr.code_writable hafter.within hweight p.body
  have hprologue : p.prologue.all Line.isWritable := by
    rw [prologue, all_append]
    refine Bool.and_eq_true_iff.mpr ⟨?_, ?_⟩ <;> split <;> rfl
  rw [p.lines_eq]
  simp only [all_append, all_cons, Bool.and_eq_true]
  exact ⟨hprologue, codeClasses_writable _ _, hdecls, hbody _, rfl, hroutines hclasses⟩

/-- The code of an accepted program can be assembled. -/
theorem linkable (hweight : p.weight < Word.limit) : Line.Linkable p.lines where
  sound := fun x hx =>
    Line.sound_of_refers (h.refers x hx) (all_eq_true.mp (h.writable hweight) x hx)
  nodup := Program.code_marks_nodup h.plain_methods h.plain_decls

end Accepted

end Program

end Foolscap
