import Foolscap.Tree
import Mathlib.Algebra.GroupWithZero.Nat
import Mathlib.Algebra.Order.BigOperators.Group.List
import Mathlib.Algebra.Order.Group.Nat

/-!
# Trees as they are written

What trees that were read from a text have in common: no type and no expression is missing, and
classes stand at the top of a program only.
-/

namespace Foolscap

mutual

/-- A declaration inside a routine or at the top of a program: no class, and with a type. -/
def Decl.Plain : Decl → Prop
  | .var v => v.annotation.ty.isComplete
  | .fn r => r.Plain
  | .cls _ => False

/-- A function or method with all types and without classes inside. -/
def Routine.Plain : Routine → Prop
  | ⟨_, _, ret, params, decls, _⟩ =>
    ret.ty.isComplete ∧ (∀ p ∈ params, p.annotation.ty.isComplete) ∧ AllPlain decls

/-- Declarations with types and without classes. -/
def AllPlain : List Decl → Prop
  | [] => True
  | d :: ds => d.Plain ∧ AllPlain ds

end

/-- A class whose fields have types and whose methods are plain. -/
def ClassDecl.Plain (c : ClassDecl) : Prop :=
  (∀ f ∈ c.fields, f.annotation.ty.isComplete) ∧ ∀ m ∈ c.methods, m.routine.Plain

/-- A program whose parts are plain. -/
def Program.Plain (p : Program) : Prop := (∀ c ∈ p.classes, c.Plain) ∧ AllPlain p.decls

theorem Routine.Plain.signature {r : Routine} (h : r.Plain) : r.signature.isComplete := by
  obtain ⟨_, _, ret, params, _, _⟩ := r
  obtain ⟨hret, hparams, -⟩ := h
  rw [Routine.signature, Ty.isComplete, Ty.allComplete_eq_all]
  simpa [hret] using hparams

/-! ### Trees without missing expressions -/

mutual

/-- No part of an expression is missing. -/
def Expr.Whole : Expr → Prop
  | .missing => False
  | .binary _ _ l r => l.Whole ∧ r.Whole
  | .not _ e | .print _ e => e.Whole
  | .cond _ c t e => c.Whole ∧ t.Whole ∧ e.Whole
  | .int _ _ | .bool _ _ | .null _ | .id _ _ _ => True
  | .call _ _ as _ | .new _ _ as _ | .send _ _ _ as _ _ => AllWhole as

/-- No part of some expressions is missing. -/
def AllWhole : List Expr → Prop
  | [] => True
  | e :: es => e.Whole ∧ AllWhole es

end

mutual

/-- No expression in a declaration is missing. -/
def Decl.Whole : Decl → Prop
  | .var v => v.value.Whole
  | .fn r => r.Whole
  | .cls _ => False

/-- No expression in a function or method is missing. -/
def Routine.Whole : Routine → Prop
  | ⟨_, _, _, _, decls, body⟩ => DeclsWhole decls ∧ body.Whole

/-- No expression in some declarations is missing. -/
def DeclsWhole : List Decl → Prop
  | [] => True
  | d :: ds => d.Whole ∧ DeclsWhole ds

end

/-- No expression in a program is missing. -/
structure Program.Whole (p : Program) : Prop where
  classes : ∀ c ∈ p.classes, ∀ m ∈ c.methods, m.routine.Whole
  decls : DeclsWhole p.decls
  body : p.body.Whole

/-! ### Numbers of names -/

mutual

/-- The number of names that a declaration declares, those inside included. -/
def Decl.weight : Decl → Nat
  | .var _ => 1
  | .fn r => r.weight
  | .cls _ => 1

/-- The number of names that a function or method declares: its own, its parameters and those
inside. -/
def Routine.weight : Routine → Nat
  | ⟨_, _, _, params, decls, _⟩ => 1 + params.length + weightAll decls

/-- The number of names that declarations declare. -/
def weightAll : List Decl → Nat
  | [] => 0
  | d :: ds => d.weight + weightAll ds

end

/-- The number of names that a class declares. -/
def ClassDecl.weight (c : ClassDecl) : Nat :=
  1 + c.fields.length + (c.methods.map fun m => m.routine.weight).sum

/-- The number of names that a program declares. -/
def Program.weight (p : Program) : Nat := (p.classes.map ClassDecl.weight).sum + weightAll p.decls

theorem Routine.one_le_weight (r : Routine) : 1 ≤ r.weight := by
  obtain ⟨_, _, _, _, _, _⟩ := r
  rw [Routine.weight]
  omega

theorem ClassDecl.weight_method_le {c : ClassDecl} {m : Method} (hm : m ∈ c.methods) :
    m.routine.weight ≤ c.weight := by
  have hsum := List.le_sum_of_mem (List.mem_map_of_mem (f := fun m => m.routine.weight) hm)
  rw [ClassDecl.weight]
  omega

end Foolscap
