import Foolscap.Proofs.Assembly.Assembled
import Foolscap.Proofs.Assembly.Labels
import Foolscap.Proofs.Scope.Walk
import Foolscap.Proofs.Word

/-!
# Numbers in generated code

Every number in generated code fits a word: constants of the source are words, and offsets are
bounded by how many names the source declares.
-/

namespace Foolscap

open List

namespace Line

/-- A line that can be written and read back: its number fits a word, its operation has no
operand. -/
def isWritable : Line → Bool
  | op o => !o.hasOperand
  | push n => Text.fitsWord n
  | pushLabel _ | branch _ _ | mark _ => true

theorem sound_of_refers {known : List Label} {x : Line} (h : x.Refers known)
    (hw : x.isWritable) : x.Sound known := by
  cases x with
  | op o => simpa [isWritable, Sound] using hw
  | push n => exact hw
  | pushLabel s => exact h
  | branch b l => exact h
  | mark l => trivial

end Line

/-! ### Bounded offsets -/

/-- An offset that is bounded. -/
def Entry.Within (b : Nat) (e : Entry) : Prop := -1 - (b : Int) ≤ e.offset ∧ e.offset ≤ b

theorem Entry.Within.fitsWord {b : Nat} {e : Entry} (h : e.Within b) (hb : b < Word.limit) :
    Text.fitsWord e.offset := by
  rw [Word.limit] at hb
  rw [Text.fitsWord_iff]
  have := h.1
  have := h.2
  omega

/-- Scopes in which the offsets of all entries are bounded. -/
structure Scopes.Within (b : Nat) (s : Scopes) : Prop where
  entry : ∀ name i e, Scopes.locate s.tables name = some (i, e) → e.Within b
  member : ∀ cls info name e, s.context.classes.get? cls = some info →
    info.members.get? name = some e → e.Within b

namespace Scopes.Within

variable {b : Nat} {s : Scopes}

theorem use? (h : s.Within b) {name : Text} {u : Use} (hu : s.use? name = some u) :
    u.entry.Within b := by
  rw [Scopes.use?, Option.map_eq_some_iff] at hu
  obtain ⟨e, he, rfl⟩ := hu
  obtain ⟨i, hi⟩ := Scopes.find?_eq_some_iff.mp he
  exact h.entry name i e hi

theorem class? (h : s.Within b) {name : Text} {e : Entry} (he : s.class? name = some e) :
    e.Within b := by
  obtain ⟨i, hi⟩ := Scopes.find?_eq_some_iff.mp (of_class? he).1
  exact h.entry name i e hi

/-- Entering a scope with no names. -/
theorem enter (h : s.Within b) : Scopes.Within b { s with tables := [] :: s.tables } := by
  refine ⟨fun name i e hl => ?_, h.member⟩
  obtain ⟨j, -, hj⟩ := locate_empty hl
  exact h.entry name j e hj

/-- Installing a name in the innermost scope. -/
theorem put (h : s.Within b) {t : Table Entry} {ts : List (Table Entry)}
    (hts : s.tables = t :: ts) {name : Text} {e : Entry} (he : e.Within b) :
    Scopes.Within b { s with tables := t.put name e :: ts } := by
  refine ⟨fun other i e' hl => ?_, h.member⟩
  obtain ⟨-, -, rfl⟩ | ⟨-, hl⟩ := locate_put hl
  · exact he
  · exact h.entry other i e' (hts ▸ hl)

end Scopes.Within

/-! ### Expressions -/

namespace Code

open Line (isWritable)

theorem branchToBool_writable (b : Branch) (n : Nat) : (branchToBool b n).all isWritable := rfl

theorem operate_writable (op : BinaryOp) (n : Nat) : (operate op n).1.all isWritable := by
  cases op <;> rfl

theorem frame_writable (hops : Nat) : (frame hops).all isWritable := by
  simp [frame, isWritable, Opcode.hasOperand]

theorem load_writable {u : Use} (h : Text.fitsWord u.entry.offset) : (load u).all isWritable := by
  rw [load, all_append, frame_writable]
  simpa [isWritable, Opcode.hasOperand] using h

theorem callFunction_writable {offset : Int} (h : Text.fitsWord offset) :
    (callFunction offset).all isWritable := by
  simpa [callFunction, isWritable, Opcode.hasOperand] using h

theorem dispatch_writable {slot : Int} (h : Text.fitsWord slot) :
    (dispatch slot).all isWritable := by
  simpa [dispatch, isWritable, Opcode.hasOperand] using h

theorem allocate_writable : allocate.all isWritable := rfl

theorem construct_writable (count : Nat) {offset : Int} (h : Text.fitsWord offset) :
    (construct count offset).all isWritable := by
  rw [construct]
  simp only [all_append, all_flatten, Bool.and_eq_true]
  refine ⟨⟨⟨?_, ?_⟩, rfl⟩, rfl⟩
  · exact all_eq_true.mpr fun x hx => eq_of_mem_replicate hx ▸ allocate_writable
  · simpa [loadGlobal, isWritable, Opcode.hasOperand, globalCell, Text.fitsWord] using h

theorem shortCircuit_writable {decisive : Int} (hd : decisive = 0 ∨ decisive = 1) {n : Nat}
    {left right : List Line} (hl : left.all isWritable) (hr : right.all isWritable) :
    (shortCircuit decisive n left right).all isWritable := by
  rw [shortCircuit, all_append, all_append, all_append, hl, hr]
  rcases hd with rfl | rfl <;> rfl

end Code

section

variable {b : Nat} {s : Scopes}

mutual

/-- The lines of an expression with bounded offsets can be written. -/
theorem Expr.code_writable (hs : s.Within b) (hb : b < Word.limit) : ∀ (e : Expr) (n : Nat),
    ((e.bind s).code n).1.all Line.isWritable
  | .missing, n => by
    rw [Expr.bind, Expr.code]
    rfl
  | .binary _ op x y, n => by
    have hx := Expr.code_writable hs hb x
    have hy := Expr.code_writable hs hb y
    rw [Expr.bind]
    by_cases hop : op ≠ .and ∧ op ≠ .or ∧ op ≠ .greaterEqual
    · rw [Expr.code_binary hop, all_append, all_append, hx, hy, Code.operate_writable]
      rfl
    · obtain rfl | rfl | rfl : op = .and ∨ op = .or ∨ op = .greaterEqual := by tauto
      · rw [Expr.code_and]
        exact Code.shortCircuit_writable (.inl rfl) (hx _) (hy _)
      · rw [Expr.code_or]
        exact Code.shortCircuit_writable (.inr rfl) (hx _) (hy _)
      · rw [Expr.code_greaterEqual, all_append, all_append, hx, hy,
          Code.branchToBool_writable]
        rfl
  | .not _ e, n => by
    rw [Expr.bind, Expr.code_not, all_append, all_cons, Expr.code_writable hs hb e,
      Code.branchToBool_writable]
    rfl
  | .cond _ c t e, n => by
    rw [Expr.bind, Expr.code_cond]
    simp only [all_append, all_cons, Expr.code_writable hs hb c,
      Expr.code_writable hs hb t, Expr.code_writable hs hb e]
    rfl
  | .print _ e, n => by
    rw [Expr.bind, Expr.code_print, all_append, Expr.code_writable hs hb e]
    rfl
  | .int _ w, n => by
    rw [Expr.bind, Expr.code]
    simpa [Line.isWritable] using Text.fitsWord_toInt w
  | .bool _ v, n => by
    rw [Expr.bind, Expr.code]
    cases v <;> rfl
  | .null _, n => by
    rw [Expr.bind, Expr.code]
    rfl
  | .id _ name _, n => by
    rw [Expr.bind]
    cases hu : s.use? name with
    | none => rw [Expr.code]; rfl
    | some u => rw [Expr.code]; exact Code.load_writable ((hs.use? hu).fitsWord hb)
  | .call _ name as _, n => by
    have hargs := codeArgsLastFirst_writable hs hb as n
    rw [Expr.bind]
    cases hu : s.use? name with
    | none => rw [Expr.code]; exact hargs
    | some u =>
      have hfits := (hs.use? hu).fitsWord hb
      rw [Expr.code_call, all_cons, all_append, all_append, hargs,
        Code.frame_writable]
      split
      · exact Code.dispatch_writable hfits
      · exact Code.callFunction_writable hfits
  | .new _ name as _, n => by
    have hargs := codeArgs_writable hs hb as n
    rw [Expr.bind]
    cases he : s.class? name with
    | none => rw [Expr.code]; exact hargs
    | some e =>
      rw [Expr.code_new, all_append, hargs,
        Code.construct_writable _ ((hs.class? he).fitsWord hb)]
      rfl
  | .send _ receiver method as _ _, n => by
    have hargs := codeArgsLastFirst_writable hs hb as n
    rw [Expr.bind]
    cases ht : (s.receive receiver method).target? with
    | none =>
      rw [Expr.code]
      cases (s.receive receiver method).use? <;> exact hargs
    | some t =>
      obtain ⟨u, cls, info, hu, hu', -, hinfo, hmember, -⟩ := Scopes.receive_target ht
      rw [hu', Expr.code_send, all_cons, all_append, all_append, hargs,
        Code.load_writable ((hs.use? hu).fitsWord hb),
        Code.dispatch_writable ((hs.member cls info method t hinfo hmember).fitsWord hb)]
      rfl

theorem codeArgs_writable (hs : s.Within b) (hb : b < Word.limit) : ∀ (es : List Expr) (n : Nat),
    (codeArgs (bindAll s es) n).1.all Line.isWritable
  | [], n => by
    rw [bindAll, codeArgs]
    rfl
  | e :: es, n => by
    rw [bindAll, codeArgs, all_append, Expr.code_writable hs hb e, codeArgs_writable hs hb es]
    rfl

theorem codeArgsLastFirst_writable (hs : s.Within b) (hb : b < Word.limit) :
    ∀ (es : List Expr) (n : Nat), (codeArgsLastFirst (bindAll s es) n).1.all Line.isWritable
  | [], n => by
    rw [bindAll, codeArgsLastFirst]
    rfl
  | e :: es, n => by
    rw [bindAll, codeArgsLastFirst, all_append, Expr.code_writable hs hb e,
      codeArgsLastFirst_writable hs hb es]
    rfl

end

end

/-! ### Declarations -/

/-- A state of the walk with room for some more declarations in the current scope. -/
structure Resolver.Roomy (b n : Nat) (R : Resolver) : Prop where
  within : R.scopes.Within b
  nonempty : R.scopes.tables ≠ []
  below : R.nextLocal ≤ -2
  room : -2 - R.nextLocal + n ≤ (b : Int)

namespace Resolver.Roomy

variable {b n : Nat} {R : Resolver}

theorem mono {m : Nat} (h : R.Roomy b n) (hm : m ≤ n) : R.Roomy b m :=
  ⟨h.within, h.nonempty, h.below, by have := h.room; omega⟩

/-- A declaration takes the next local offset. -/
theorem declare (h : R.Roomy b (n + 1)) {t : Table Entry} {ts : List (Table Entry)}
    (ht : R.scopes.tables = t :: ts) {R' : Resolver} {name : Text} {e : Entry}
    (he : e.offset = R.nextLocal) (hnext : R'.nextLocal = R.nextLocal - 1)
    (hscopes : R'.scopes = { R.scopes with tables := t.put name e :: ts }) : R'.Roomy b n := by
  have hbelow := h.below
  have hroom := h.room
  refine ⟨?_, by simp [hscopes], by omega, by omega⟩
  rw [hscopes]
  exact h.within.put ht ⟨by omega, by omega⟩

theorem var (h : R.Roomy b (n + 1)) {v : VarDecl} (hclean : (R.var v).errors = []) :
    (R.var v).Roomy b n := by
  obtain ⟨t, ts, ht⟩ := exists_cons_of_ne_nil h.nonempty
  exact h.declare ht rfl (by rw [(var_eq ht hclean).2]) (by rw [(var_eq ht hclean).2])

theorem fn (h : R.Roomy b (n + 1)) {f : Routine} (hclean : (R.fn f).errors = []) :
    (R.fn f).Roomy b n := by
  obtain ⟨t, ts, ht⟩ := exists_cons_of_ne_nil h.nonempty
  exact h.declare ht rfl (by rw [(fn_eq ht hclean).2]) (by rw [(fn_eq ht hclean).2])

theorem params {offset : Int} {ps : List Param} (h : R.Roomy b n) (hoffset : 1 ≤ offset)
    (hps : offset + ps.length ≤ (b : Int) + 1) (hclean : (R.params offset ps).errors = []) :
    (R.params offset ps).Roomy b n := by
  induction ps generalizing R offset with
  | nil => exact h
  | cons p ps ih =>
    obtain ⟨t, ts, ht⟩ := exists_cons_of_ne_nil h.nonempty
    obtain ⟨-, heq⟩ := params_cons_eq ht hclean
    rw [heq] at hclean ⊢
    rw [length_cons] at hps
    refine ih ⟨h.within.put ht ⟨?_, ?_⟩, nofun, h.below, h.room⟩ (by omega) (by omega) hclean
    · dsimp only
      omega
    · dsimp only
      omega

/-- The scope of a routine has room for everything declared in it. -/
theorem inside {r : Routine} (hs : R.scopes.Within b) (hr : r.weight ≤ b)
    (hclean : (R.inside r).errors = []) : (R.inside r).Roomy b (weightAll r.decls) := by
  obtain ⟨_, _, _, ps, ds, _⟩ := r
  rw [Routine.weight] at hr
  have henter : (R.enter []).Roomy b (weightAll ds) :=
    ⟨hs.enter, cons_ne_nil _ _, Int.le_refl _, by
      have : (R.enter []).nextLocal = -2 := rfl
      omega⟩
  have hps : Frame.firstParam + (ps.length : Int) ≤ (b : Int) + 1 := by
    rw [Frame.firstParam]
    omega
  exact henter.params (Int.le_refl _) hps hclean

end Resolver.Roomy

theorem Code.routine_writable (l : Label) (d p : Nat) {inside : List Line}
    (h : inside.all Line.isWritable) : (routine l d p inside).all Line.isWritable := by
  simp [routine, h, Line.isWritable, Opcode.hasOperand]

/-- What was generated can be written, if what was generated before can. -/
def Emitter.Writes (g g' : Emitter) (c : List Line) : Prop :=
  c.all Line.isWritable ∧ (g.routines.all Line.isWritable → g'.routines.all Line.isWritable)

section

variable {b : Nat}

mutual

/-- The code of a declaration can be written as text: offsets are bounded by the number of names
that are declared, and that fits into a word. -/
theorem Decl.code_writes (hb : b < Word.limit) : ∀ (d : Decl), d.Plain →
    ∀ {R : Resolver} {n : Nat} (g : Emitter), R.Roomy b (d.weight + n) →
    (d.resolve R).2.errors = [] →
    g.Writes ((d.resolve R).1.code g).2 ((d.resolve R).1.code g).1 ∧ (d.resolve R).2.Roomy b n
  | .var v, _, R, n, g, hR, hclean => by
    rw [Decl.resolve_var] at hclean ⊢
    rw [Decl.weight, Nat.add_comm] at hR
    have hexpr : (R.expr v.value).2.Roomy b (n + 1) := ⟨hR.within, hR.nonempty, hR.below, hR.room⟩
    rw [Decl.code]
    exact ⟨⟨Expr.code_writable hR.within hb v.value _, id⟩, hexpr.var hclean⟩
  | .fn r, hp, R, n, g, hR, hclean => by
    rw [Decl.resolve_fn] at hclean ⊢
    rw [Decl.weight] at hR
    have hstill := Routine.resolveInside_still r hp (R.fn r)
    have hweight := r.one_le_weight
    have hroom := hR.room
    have hbelow := hR.below
    have hfn := (hR.mono (show n + 1 ≤ r.weight + n by omega)).fn (hstill.clean hclean)
    rw [Decl.code]
    refine ⟨⟨rfl, Routine.emit_writes hb r hp g.takeRoutine.1 g.takeRoutine.2 hfn.within (by omega)
      hclean⟩, ?_⟩
    exact ⟨hstill.scopes ▸ hfn.within, hstill.scopes ▸ hfn.nonempty, hstill.nextLocal ▸ hfn.below,
      hstill.nextLocal ▸ hfn.room⟩
  | .cls _, hp, _, _, _, _, _ => hp.elim

/-- The routines generated for a routine can be written. -/
theorem Routine.emit_writes (hb : b < Word.limit) : ∀ (r : Routine), r.Plain →
    ∀ {R : Resolver} (l : Label) (g : Emitter), R.scopes.Within b → r.weight ≤ b →
    (r.resolveInside R).2.errors = [] → g.routines.all Line.isWritable →
    ((r.resolveInside R).1.emit l g).routines.all Line.isWritable
  | ⟨span, name, ret, ps, ds, body⟩, hp, R, l, g, hs, hr, hclean, hg => by
    have hdecls := prefix_nil.mp
      (hclean ▸ Routine.resolveInside_errors ⟨span, name, ret, ps, ds, body⟩ R)
    have hinside := Resolver.Roomy.inside hs hr ((resolveDecls_kept ds hp.2.2 _).clean hdecls)
    obtain ⟨⟨hcode, hroutines⟩, hafter⟩ :=
      codeDecls_writes hb ds hp.2.2 g (hinside.mono (Nat.le_refl (weightAll ds + 0))) hdecls
    have hbody := Expr.code_writable hafter.within hb body
    rw [Routine.resolveInside_fst, Routine.emit_routines, all_append]
    simp only [Bool.and_eq_true]
    refine ⟨hroutines hg, Code.routine_writable _ _ _ ?_⟩
    rw [all_append, hcode]
    exact hbody _

/-- So can the code of several declarations.  Each one takes from the room that is left for offsets
what it declares. -/
theorem codeDecls_writes (hb : b < Word.limit) : ∀ (ds : List Decl), AllPlain ds →
    ∀ {R : Resolver} {n : Nat} (g : Emitter), R.Roomy b (weightAll ds + n) →
    (resolveDecls R ds).2.errors = [] →
    g.Writes (codeDecls g (resolveDecls R ds).1).2 (codeDecls g (resolveDecls R ds).1).1 ∧
      (resolveDecls R ds).2.Roomy b n
  | [], _, R, n, g, hR, _ => by
    rw [resolveDecls, codeDecls]
    exact ⟨⟨rfl, id⟩, hR.mono (by omega)⟩
  | d :: ds, hp, R, n, g, hR, hclean => by
    rw [resolveDecls_cons] at hclean ⊢
    rw [codeDecls_cons]
    rw [weightAll, Nat.add_assoc] at hR
    obtain ⟨⟨hcode, hroutines⟩, hafter⟩ := Decl.code_writes hb d hp.1 g hR
      ((resolveDecls_kept ds hp.2 _).clean hclean)
    obtain ⟨⟨hcode', hroutines'⟩, hafter'⟩ :=
      codeDecls_writes hb ds hp.2 ((d.resolve R).1.code g).2 hafter hclean
    refine ⟨⟨?_, fun hg => hroutines' (hroutines hg)⟩, hafter'⟩
    rw [all_append, hcode, hcode']
    rfl

end

end

end Foolscap
