import Foolscap.Assembly.Generate
import Foolscap.Proofs.Tree.Plain

/-!
# Generated code

The parts of generated code, form by form.  Routines are generated one behind the other: what was
generated before stays.
-/

namespace Foolscap

open List

/-! ### Expressions -/

namespace Expr

variable {sp : Span} {l r c y e : Expr} {n : Nat}

theorem code_and : ((binary sp .and l r).code n).1 =
    Code.shortCircuit 0 n (l.code (n + 2)).1 (r.code (l.code (n + 2)).2).1 := rfl

theorem code_or : ((binary sp .or l r).code n).1 =
    Code.shortCircuit 1 n (l.code (n + 2)).1 (r.code (l.code (n + 2)).2).1 := rfl

theorem code_greaterEqual : ((binary sp .greaterEqual l r).code n).1 =
    (r.code n).1 ++ ((l.code (r.code n).2).1 ++
      Code.branchToBool .lessEqual (l.code (r.code n).2).2) :=
  append_assoc _ _ _

/-- The code of an operator that needs both operands: theirs, from left to right, and then its
own. -/
theorem code_binary {op : BinaryOp} (h : op ≠ .and ∧ op ≠ .or ∧ op ≠ .greaterEqual) :
    ((binary sp op l r).code n).1 = (l.code n).1 ++ ((r.code (l.code n).2).1 ++
      (Code.operate op (r.code (l.code n).2).2).1) := by
  rw [code, ← append_assoc]
  · exact h.1
  · exact h.2.1
  · exact h.2.2

theorem code_not : ((not sp e).code n).1 =
    (e.code n).1 ++ .push 0 :: Code.branchToBool .equal (e.code n).2 :=
  append_assoc _ [Line.push 0] _

theorem code_cond : ((cond sp c y e).code n).1 =
    (c.code (n + 2)).1 ++ Line.push 1 :: .branch .equal (.branch n) ::
      ((e.code (c.code (n + 2)).2).1 ++ Line.branch .always (.branch (n + 1)) ::
        .mark (.branch n) ::
        ((y.code (e.code (c.code (n + 2)).2).2).1 ++ [Line.mark (.branch (n + 1))])) := by
  rw [code]
  simp

theorem code_print : ((print sp e).code n).1 = (e.code n).1 ++ [.op .print] := rfl

theorem code_call {name : Text} {as : List Expr} {u : Use} :
    ((call sp name as (some u)).code n).1 = .op .lfp :: ((codeArgsLastFirst as n).1 ++
      (Code.frame u.hops ++ if u.entry.kind = .method then Code.dispatch u.entry.offset
        else Code.callFunction u.entry.offset)) :=
  congrArg (Line.op .lfp :: ·) (append_assoc _ _ _)

theorem code_new {name : Text} {as : List Expr} {entry : Entry} :
    ((new sp name as (some entry)).code n).1 =
      (codeArgs as n).1 ++ Code.construct as.length entry.offset := rfl

theorem code_send {receiver method : Text} {as : List Expr} {u : Use} {t : Entry} :
    ((send sp receiver method as (some u) (some t)).code n).1 = .op .lfp ::
      ((codeArgsLastFirst as n).1 ++ (Code.load u ++ Code.dispatch t.offset)) :=
  congrArg (Line.op .lfp :: ·) (append_assoc _ _ _)

end Expr

/-! ### Declarations -/

theorem codeDecls_cons (g : Emitter) (x : Decl) (ds : List Decl) :
    codeDecls g (x :: ds) = ((x.code g).1 ++ (codeDecls (x.code g).2 ds).1,
      (codeDecls (x.code g).2 ds).2) := by
  rw [codeDecls]

theorem Routine.emit_routines {r : Routine} {l : Label} {g : Emitter} :
    (r.emit l g).routines = ((codeDecls g r.decls).2.expr r.body).2.routines ++
      Code.routine l r.decls.length r.params.length
        ((codeDecls g r.decls).1 ++ ((codeDecls g r.decls).2.expr r.body).1) := by
  obtain ⟨_, _, _, _, _, _⟩ := r
  rw [Routine.emit]

mutual

theorem Decl.code_isPrefix : ∀ (d : Decl) (g : Emitter), g.routines <+: (d.code g).2.routines
  | .var v, g => by rw [Decl.code]; exact prefix_rfl
  | .fn r, g => by rw [Decl.code]; exact r.emit_isPrefix g.takeRoutine.1 g.takeRoutine.2
  | .cls c, g => by rw [Decl.code]; exact c.code_isPrefix g

/-- Generating a routine keeps those generated before. -/
theorem Routine.emit_isPrefix : ∀ (r : Routine) (l : Label) (g : Emitter),
    g.routines <+: (r.emit l g).routines
  | ⟨_, _, _, _, decls, _⟩, l, g => by
    rw [Routine.emit]
    exact (codeDecls_isPrefix decls g).trans (prefix_append _ _)

theorem ClassDecl.code_isPrefix : ∀ (c : ClassDecl) (g : Emitter),
    g.routines <+: (c.code g).2.routines
  | ⟨_, _, super, _, methods, _, _⟩, g => by
    rw [ClassDecl.code]
    exact emitMethods_isPrefix methods g (g.inherited super)

/-- Routines are only added, so what was generated before can be found where it was. -/
theorem codeDecls_isPrefix : ∀ (ds : List Decl) (g : Emitter),
    g.routines <+: (codeDecls g ds).2.routines
  | [], g => by unfold codeDecls; exact prefix_rfl
  | d :: ds, g => by
    rw [codeDecls]
    exact (d.code_isPrefix g).trans (codeDecls_isPrefix ds _)

theorem emitMethods_isPrefix : ∀ (ms : List Method) (g : Emitter) (table : List Slot),
    g.routines <+: (emitMethods g table ms).2.routines
  | [], g, table => by unfold emitMethods; exact prefix_rfl
  | ⟨r, _⟩ :: ms, g, table => by
    rw [emitMethods]
    exact (r.emit_isPrefix g.takeRoutine.1 g.takeRoutine.2).trans (emitMethods_isPrefix ms _ _)

end

mutual

theorem Decl.code_dispatch : ∀ (d : Decl), d.Plain → ∀ g : Emitter,
    (d.code g).2.dispatch = g.dispatch
  | .var v, _, g => by rw [Decl.code]; rfl
  | .fn r, hp, g => by
    rw [Decl.code]
    exact r.emit_dispatch hp g.takeRoutine.1 g.takeRoutine.2
  | .cls _, hp, _ => hp.elim

/-- A routine without classes has no dispatch tables. -/
theorem Routine.emit_dispatch : ∀ (r : Routine), r.Plain → ∀ (l : Label) (g : Emitter),
    (r.emit l g).dispatch = g.dispatch
  | ⟨_, _, _, _, decls, _⟩, hp, l, g => by
    rw [Routine.emit]
    exact codeDecls_dispatch decls hp.2.2 g

theorem codeDecls_dispatch : ∀ (ds : List Decl), AllPlain ds → ∀ g : Emitter,
    (codeDecls g ds).2.dispatch = g.dispatch
  | [], _, g => by rw [codeDecls]
  | d :: ds, hp, g => by
    rw [codeDecls]
    exact (codeDecls_dispatch ds hp.2 _).trans (d.code_dispatch hp.1 g)

end

/-- Generating the methods of a class leaves the dispatch tables alone; they are entered once the
class is done. -/
theorem emitMethods_dispatch (ms : List Method) (hp : ∀ m ∈ ms, m.routine.Plain) (g : Emitter)
    (table : List Slot) : (emitMethods g table ms).2.dispatch = g.dispatch := by
  induction ms generalizing g table with
  | nil => rw [emitMethods]
  | cons m ms ih =>
    obtain ⟨r, offset⟩ := m
    rw [emitMethods]
    have hrest := ih (forall_mem_cons.mp hp).2
      (r.emit g.takeRoutine.1 g.takeRoutine.2)
      (Code.setSlot table offset.toNat g.takeRoutine.1)
    exact hrest.trans (r.emit_dispatch (hp _ mem_cons_self) _ _)

theorem codeClasses_isPrefix (cs : List ClassDecl) (g : Emitter) :
    g.routines <+: (codeClasses g cs).2.routines := by
  induction cs generalizing g with
  | nil => exact prefix_rfl
  | cons c cs ih =>
    rw [codeClasses]
    exact (c.code_isPrefix g).trans (ih _)

end Foolscap
