import Foolscap.Proofs.Assembly.Heights
import Foolscap.Tree.Walk
import Mathlib.Data.Option.Basic

/-!
# Fragments of generated code

The code of every expression of a program is in one piece among the lines of the program: the code
of an operand inside that of its operator, the code of a body inside that of its routine.
-/

namespace Foolscap

open List

/-- The code of an expression without gaps, its label numbers from one on, with the lines after
it. -/
structure Fragment (lines : List Line) (e : Expr) (n : Nat) (k : List Line) : Prop where
  complete : e.gap? = none
  suffix : (e.code n).1 ++ k <:+ lines

/-- The code of all expressions among some nodes is among some lines. -/
def Found (lines : List Line) (nodes : List Node) : Prop :=
  ∀ e, .expr e ∈ nodes → ∃ n k, Fragment lines e n k

variable {lines : List Line}

variable {e : Expr} {n : Nat}

theorem Fragment.of_infix (he : e.gap? = none) (h : (e.code n).1 <:+: lines) :
    ∃ n k, Fragment lines e n k := by
  obtain ⟨t, ⟨k, rfl⟩, ht⟩ := infix_iff_prefix_suffix.mp h
  exact ⟨n, k, he, ht⟩

theorem Fragment.isInfix {k : List Line} (h : Fragment lines e n k) : (e.code n).1 <:+: lines :=
  (prefix_append _ k).isInfix.trans h.suffix.isInfix

namespace Found

variable {nodes nodes' : List Node}

theorem nil : Found lines [] := fun _ h => absurd h not_mem_nil

theorem append (h : Found lines nodes) (h' : Found lines nodes') : Found lines (nodes ++ nodes') :=
  fun e he => (mem_append.mp he).elim (h e) (h' e)

/-- An expression, and what is below it. -/
theorem under {e : Expr} (he : ∃ n k, Fragment lines e n k) (h : Found lines nodes) :
    Found lines (Node.under (fun _ => true) (.expr e) nodes) := by
  intro e' he'
  rcases mem_cons.mp he' with heq | he'
  · cases heq
    exact he
  · exact h e' he'

/-- A node that is no expression, and what is below it. -/
theorem below {x : Node} (hx : ∀ e, x ≠ .expr e) (h : Found lines nodes) :
    Found lines (Node.under (fun _ => true) x nodes) := by
  intro e he
  rcases mem_cons.mp he with heq | he
  · exact absurd heq.symm (hx e)
  · exact h e he

/-- Nodes that are no expressions. -/
theorem map {α : Type} {f : α → Node} (hf : ∀ a e, f a ≠ .expr e) (as : List α) :
    Found lines (as.map f) := by
  intro e he
  obtain ⟨a, -, ha⟩ := mem_map.mp he
  exact absurd ha (hf a e)

end Found

/-! ### Expressions -/

theorem Code.operands_infix (d : Int) (n : Nat) (left right : List Line) :
    left <:+: shortCircuit d n left right ∧ right <:+: shortCircuit d n left right := by
  rw [shortCircuit]
  refine ⟨?_, ⟨_, _, rfl⟩⟩
  simp only [append_assoc]
  exact (prefix_append _ _).isInfix

namespace Expr

variable (sp : Span) (l r c y e : Expr) (n : Nat)

/-- The operands of an operator, in either order. -/
theorem operands_infix (op : BinaryOp) :
    (∃ i, (l.code i).1 <:+: ((binary sp op l r).code n).1) ∧
      ∃ i, (r.code i).1 <:+: ((binary sp op l r).code n).1 := by
  by_cases hand : op = .and
  · rw [hand, code_and]
    obtain ⟨hl, hr⟩ := Code.operands_infix 0 n (l.code (n + 2)).1 (r.code (l.code (n + 2)).2).1
    exact ⟨⟨_, hl⟩, ⟨_, hr⟩⟩
  by_cases hor : op = .or
  · rw [hor, code_or]
    obtain ⟨hl, hr⟩ := Code.operands_infix 1 n (l.code (n + 2)).1 (r.code (l.code (n + 2)).2).1
    exact ⟨⟨_, hl⟩, ⟨_, hr⟩⟩
  by_cases hge : op = .greaterEqual
  · rw [hge, code_greaterEqual]
    exact ⟨⟨_, infix_append' _ _ _⟩, ⟨_, (prefix_append _ _).isInfix⟩⟩
  · rw [code_binary ⟨hand, hor, hge⟩]
    exact ⟨⟨_, (prefix_append _ _).isInfix⟩, ⟨_, infix_append' _ _ _⟩⟩

theorem branches_infix : (∃ i, (c.code i).1 <:+: ((cond sp c y e).code n).1) ∧
    (∃ i, (y.code i).1 <:+: ((cond sp c y e).code n).1) ∧
    ∃ i, (e.code i).1 <:+: ((cond sp c y e).code n).1 := by
  rw [code_cond]
  refine ⟨⟨n + 2, (prefix_append _ _).isInfix⟩, ⟨(e.code (c.code (n + 2)).2).2, ?_⟩,
    ⟨(c.code (n + 2)).2, ?_⟩⟩
  · refine List.IsInfix.trans ?_ (suffix_append _ _).isInfix
    refine List.IsInfix.trans ?_ (suffix_append [_, _] _).isInfix
    exact (infix_append' [_, _] _ _).trans (suffix_append _ _).isInfix
  · exact (infix_append' [_, _] _ _).trans (suffix_append _ _).isInfix

end Expr

theorem codeArgs_infix {es : List Expr} (he : e ∈ es) (n : Nat) :
    ∃ i, (e.code i).1 <:+: (codeArgs es n).1 := by
  induction es generalizing n with
  | nil => exact absurd he not_mem_nil
  | cons e' es ih =>
    rw [codeArgs]
    rcases mem_cons.mp he with rfl | he
    · exact ⟨n, (prefix_append _ _).isInfix⟩
    · obtain ⟨i, hi⟩ := ih he (e'.code n).2
      exact ⟨i, hi.trans (suffix_append _ _).isInfix⟩

theorem codeArgsLastFirst_infix {es : List Expr} (he : e ∈ es) (n : Nat) :
    ∃ i, (e.code i).1 <:+: (codeArgsLastFirst es n).1 := by
  induction es with
  | nil => exact absurd he not_mem_nil
  | cons e' es ih =>
    rw [codeArgsLastFirst]
    rcases mem_cons.mp he with rfl | he
    · exact ⟨_, (suffix_append _ _).isInfix⟩
    · obtain ⟨i, hi⟩ := ih he
      exact ⟨i, hi.trans (prefix_append _ _).isInfix⟩

/-- The code of a part of an expression is in the code of the whole expression. -/
theorem Fragment.part {e' : Expr} {k : List Line} (h : Fragment lines e n k)
    (he' : e'.gap? = none) (hcode : ∃ i, (e'.code i).1 <:+: (e.code n).1) :
    ∃ n k, Fragment lines e' n k := by
  obtain ⟨i, hi⟩ := hcode
  exact Fragment.of_infix he' (hi.trans h.isInfix)

mutual

/-- The expressions inside an expression are found where its code is. -/
theorem Expr.found : ∀ e : Expr, (∃ n k, Fragment lines e n k) → Found lines (e.walk fun _ => true)
  | .missing, _ => by
    rw [Expr.walk]
    exact .nil
  | .binary sp op l r, ⟨n, k, h⟩ => by
    obtain ⟨hl, hr⟩ := Expr.gap?_binary.mp h.complete
    obtain ⟨hleft, hright⟩ := Expr.operands_infix sp l r n op
    rw [Expr.walk]
    exact .under ⟨n, k, h⟩ ((l.found (h.part hl hleft)).append (r.found (h.part hr hright)))
  | .not sp e, ⟨n, k, h⟩ => by
    have he : e.gap? = none := by simpa only [Expr.gap?] using h.complete
    rw [Expr.walk]
    refine .under ⟨n, k, h⟩ (e.found (h.part he ⟨n, ?_⟩))
    rw [Expr.code_not]
    exact (prefix_append _ _).isInfix
  | .cond sp c y e, ⟨n, k, h⟩ => by
    obtain ⟨hc, he, hy⟩ := Expr.gap?_cond.mp h.complete
    obtain ⟨hcond, hthen, helse⟩ := Expr.branches_infix sp c y e n
    rw [Expr.walk]
    exact .under ⟨n, k, h⟩ (((c.found (h.part hc hcond)).append
      (y.found (h.part hy hthen))).append (e.found (h.part he helse)))
  | .print sp e, ⟨n, k, h⟩ => by
    have he : e.gap? = none := by simpa only [Expr.gap?] using h.complete
    rw [Expr.walk]
    refine .under ⟨n, k, h⟩ (e.found (h.part he ⟨n, ?_⟩))
    rw [Expr.code_print]
    exact (prefix_append _ _).isInfix
  | .int sp w, h | .bool sp b, h | .null sp, h | .id sp name use, h => by
    rw [Expr.walk]
    exact .under h .nil
  | .call sp name es use, ⟨n, k, h⟩ => by
    obtain ⟨hes, u, rfl⟩ := Expr.gap?_call.mp h.complete
    rw [Expr.walk]
    refine .under ⟨n, k, h⟩ (allExprs_found es fun e he => h.part (hes e he) ?_)
    obtain ⟨i, hi⟩ := codeArgsLastFirst_infix he n
    rw [Expr.code_call]
    exact ⟨i, hi.trans (infix_append' [_] _ _)⟩
  | .new sp name es entry, ⟨n, k, h⟩ => by
    obtain ⟨hes, e, rfl⟩ := Expr.gap?_new.mp h.complete
    rw [Expr.walk]
    refine .under ⟨n, k, h⟩ (allExprs_found es fun e he => h.part (hes e he) ?_)
    obtain ⟨i, hi⟩ := codeArgs_infix he n
    rw [Expr.code_new]
    exact ⟨i, hi.trans (prefix_append _ _).isInfix⟩
  | .send sp receiver method es use target, ⟨n, k, h⟩ => by
    obtain ⟨hes, ⟨u, rfl⟩, t, rfl⟩ := Expr.gap?_send.mp h.complete
    rw [Expr.walk]
    refine .under ⟨n, k, h⟩ (allExprs_found es fun e he => h.part (hes e he) ?_)
    obtain ⟨i, hi⟩ := codeArgsLastFirst_infix he n
    rw [Expr.code_send]
    exact ⟨i, hi.trans (infix_append' [_] _ _)⟩

theorem allExprs_found : ∀ es : List Expr, (∀ e ∈ es, ∃ n k, Fragment lines e n k) →
    Found lines (walkArgs (fun _ => true) es)
  | [], _ => by
    rw [walkArgs]
    exact .nil
  | e :: es, h => by
    rw [walkArgs]
    exact (e.found (h e mem_cons_self)).append
      (allExprs_found es (forall_mem_cons.mp h).2)

end

/-! ### Declarations -/

theorem Code.inside_infix (l : Label) (decls params : Nat) (inside : List Line) :
    inside <:+: routine l decls params inside := by
  rw [routine]
  simp only [append_assoc]
  exact infix_append' _ _ _

mutual

/-- The expressions of a declaration are found among lines that hold its code and the routines that
were generated for it. -/
theorem Decl.found : ∀ (d : Decl) (g : Emitter), d.gap? = none → (d.code g).1 <:+: lines →
    (d.code g).2.routines <:+: lines → Found lines (d.walk fun _ => true)
  | .var v, g, hgap, hcode, _ => by
    rw [Decl.gap?] at hgap
    rw [Decl.walk]
    rw [Decl.code] at hcode
    exact .below nofun (v.value.found (Fragment.of_infix hgap hcode))
  | .fn r, g, hgap, _, hroutines => by
    rw [Decl.gap?] at hgap
    rw [Decl.walk]
    rw [Decl.code] at hroutines
    exact .below nofun (r.found _ _ hgap hroutines)
  | .cls c, g, hgap, _, hroutines => by
    rw [Decl.gap?] at hgap
    rw [Decl.walk]
    rw [Decl.code] at hroutines
    exact c.found g hgap hroutines

/-- The expressions inside a routine are found where its code is, and those of the routines in
it. -/
theorem Routine.found : ∀ (r : Routine) (l : Label) (g : Emitter), r.gap? = none →
    (r.emit l g).routines <:+: lines → Found lines (r.walkInside fun _ => true)
  | ⟨_, _, _, params, decls, body⟩, l, g, hgap, hroutines => by
    rw [Routine.gap?, Option.orElse_eq_none] at hgap
    rw [Routine.emit] at hroutines
    dsimp only at hroutines
    have hbefore := (prefix_append _ _).isInfix.trans hroutines
    have hinside : (codeDecls g decls).1 ++ ((codeDecls g decls).2.expr body).1 <:+: lines :=
      (Code.inside_infix _ _ _ _).trans ((suffix_append _ _).isInfix.trans hroutines)
    have hbody := Fragment.of_infix hgap.2 ((suffix_append _ _).isInfix.trans hinside)
    rw [Routine.walkInside]
    exact ((Found.map nofun params).append (allDecls_found decls g hgap.1
      ((prefix_append _ _).isInfix.trans hinside) hbefore)).append (body.found hbody)

theorem ClassDecl.found : ∀ (c : ClassDecl) (g : Emitter), c.gap? = none →
    (c.code g).2.routines <:+: lines → Found lines (c.walk fun _ => true)
  | ⟨_, _, super, fields, methods, _, _⟩, g, hgap, hroutines => by
    rw [ClassDecl.gap?] at hgap
    rw [ClassDecl.code] at hroutines
    rw [ClassDecl.walk]
    exact .below nofun ((Found.map nofun fields).append
      (allMethods_found methods g (g.inherited super) hgap hroutines))

/-- Routines are only added to, so those of the first declarations are still there at the end. -/
theorem allDecls_found : ∀ (ds : List Decl) (g : Emitter), gapDecls? ds = none →
    (codeDecls g ds).1 <:+: lines → (codeDecls g ds).2.routines <:+: lines →
    Found lines (walkDecls (fun _ => true) ds)
  | [], _, _, _, _ => by
    rw [walkDecls]
    exact .nil
  | d :: ds, g, hgap, hcode, hroutines => by
    rw [gapDecls?, Option.orElse_eq_none] at hgap
    rw [codeDecls_cons] at hcode hroutines
    -- Routines are only added, so those of the first declaration are still there.
    have hbefore := (codeDecls_isPrefix ds (d.code g).2).isInfix.trans hroutines
    rw [walkDecls]
    exact (d.found g hgap.1 ((prefix_append _ _).isInfix.trans hcode) hbefore).append
      (allDecls_found ds _ hgap.2 ((suffix_append _ _).isInfix.trans hcode) hroutines)

theorem allMethods_found : ∀ (ms : List Method) (g : Emitter) (table : List Slot),
    gapMethods? ms = none → (emitMethods g table ms).2.routines <:+: lines →
    Found lines (walkMethods (fun _ => true) ms)
  | [], _, _, _, _ => by
    rw [walkMethods]
    exact .nil
  | ⟨r, offset⟩ :: ms, g, table, hgap, hroutines => by
    rw [gapMethods?, Option.orElse_eq_none, Option.orElse_eq_none] at hgap
    rw [emitMethods] at hroutines
    have hbefore := (emitMethods_isPrefix ms _ _).isInfix.trans hroutines
    rw [walkMethods, Method.walk]
    refine .append (.below nofun ?_) (allMethods_found ms _ _ hgap.2.2 hroutines)
    exact r.found _ _ hgap.1 hbefore

end

theorem allClasses_found {cs : List ClassDecl} {g : Emitter} (hgap : gapClasses? cs = none)
    (hroutines : (codeClasses g cs).2.routines <:+: lines) :
    Found lines (cs.flatMap (ClassDecl.walk fun _ => true)) := by
  induction cs generalizing g with
  | nil => exact .nil
  | cons c cs ih =>
    rw [gapClasses?, Option.orElse_eq_none] at hgap
    rw [codeClasses] at hroutines
    have hbefore := (codeClasses_isPrefix cs (c.code g).2).isInfix.trans hroutines
    rw [flatMap_cons]
    exact (c.found g hgap.1 hbefore).append (ih hgap.2 hroutines)

/-- The code of every expression of a program is found in the code of the program. -/
theorem Program.found {p : Program} (hgap : p.gap? = none) (g : Emitter) :
    Found (p.code g).lines p.nodes := by
  rw [Program.gap?, Option.orElse_eq_none, Option.orElse_eq_none] at hgap
  obtain ⟨hclasses, hdecls, hbody⟩ := hgap
  have hroutines : (p.code g).routines <:+: (p.code g).lines := (suffix_append _ _).isInfix
  have hbefore := codeDecls_isPrefix p.decls (codeClasses { g with routines := [] } p.classes).2
  -- The code of the declarations and that of the body are the last parts but one of the main code.
  have hcb : ((codeDecls (codeClasses { g with routines := [] } p.classes).2 p.decls).2.expr
      p.body).1 <:+: (p.code g).lines :=
    (suffix_append _ _).isInfix.trans
      ((prefix_append _ _).trans (prefix_append _ _)).isInfix
  have hcd : (codeDecls (codeClasses { g with routines := [] } p.classes).2 p.decls).1 <:+:
      (p.code g).lines :=
    (suffix_append _ _).isInfix.trans ((prefix_append _ _).trans
      ((prefix_append _ _).trans (prefix_append _ _))).isInfix
  refine .below nofun (.append (.append ?_ ?_) ?_)
  · exact allClasses_found hclasses (hbefore.isInfix.trans hroutines)
  · exact allDecls_found p.decls _ hdecls hcd hroutines
  · exact p.body.found (Fragment.of_infix hbody hcb)

end Foolscap
