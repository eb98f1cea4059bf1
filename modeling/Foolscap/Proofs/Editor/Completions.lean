import Foolscap.Editor.Completion
import Foolscap.Proofs.Tree.Nodes
import Mathlib.Data.UInt
import Mathlib.Logic.Relation

/-!
# What is offered for a fragment

Completion sorts declarations and reserved words and drops what occurs twice.  Here it is told
without lists what is offered: each reserved word and each name that is declared at any depth, as
far as it starts with the fragment, once and in order.
-/

namespace Foolscap

open List Node

/-! ### Declarations at any depth -/

/-- A declaration as a place where a name is declared. -/
def Decl.declaration : Decl → Declaration
  | .var v => .var v
  | .fn r => .fn r
  | .cls c => .cls c

/-- What a function or method declares: its parameters, and what stands before its body. -/
def Routine.inner (r : Routine) : List Declaration :=
  r.params.map .par ++ r.decls.map Decl.declaration

namespace Declaration

/-- The declarations right inside a declaration. -/
def inner : Declaration → List Declaration
  | cls c => c.fields.map field ++ c.methods.map method
  | fn r => r.inner
  | method m => m.routine.inner
  | field _ | var _ | par _ => []

/-- A declaration is another one or is inside it at some depth. -/
def Holds : Declaration → Declaration → Prop :=
  Relation.ReflTransGen fun d inside => inside ∈ d.inner

variable {d x : Declaration}

theorem holds_iff : d.Holds x ↔ x = d ∨ ∃ y ∈ d.inner, y.Holds x :=
  Relation.ReflTransGen.cases_head_iff.trans (or_congr_left eq_comm)

theorem holds_iff_eq (h : d.inner = []) : d.Holds x ↔ x = d := by
  rw [holds_iff, h]
  simp

end Declaration

/-- What a program declares at any depth. -/
def Program.Declares (p : Program) (x : Declaration) : Prop :=
  ∃ top ∈ p.classes.map Declaration.cls ++ p.decls.map Decl.declaration, top.Holds x

/-- An expression declares nothing. -/
@[simp] theorem Expr.declarations_walk (e : Expr) :
    (e.walk fun _ => true).filterMap declaration? = [] := by
  rw [Expr.walk_eq_parts, filterMap_map]
  simp [declaration?, Function.comp_def]

mutual

theorem Decl.mem_declarations : ∀ (d : Decl) (x : Declaration),
    x ∈ (d.walk fun _ => true).filterMap declaration? ↔ d.declaration.Holds x
  | .var v, x => by
    rw [Decl.declaration, Declaration.holds_iff_eq rfl]
    simp [Decl.walk, under, declaration?]
  | .fn r, x => by
    rw [Decl.declaration, Declaration.holds_iff, Declaration.inner, ← r.mem_declarations x]
    simp [Decl.walk, under, declaration?]
  | .cls c, x => c.mem_declarations x

theorem Routine.mem_declarations : ∀ (r : Routine) (x : Declaration),
    x ∈ (r.walkInside fun _ => true).filterMap declaration? ↔ ∃ y ∈ r.inner, y.Holds x
  | ⟨_, _, _, params, decls, body⟩, x => by
    have hparams : ∀ q : Param, (Declaration.par q).Holds x ↔ x = .par q :=
      fun _ => Declaration.holds_iff_eq rfl
    simp only [Routine.walkInside, Routine.inner, filterMap_append, Expr.declarations_walk,
      append_nil, mem_append, or_and_right, exists_or, walkDecls_mem_declarations decls x]
    simp [declaration?, hparams, eq_comm]

theorem ClassDecl.mem_declarations : ∀ (c : ClassDecl) (x : Declaration),
    x ∈ (c.walk fun _ => true).filterMap declaration? ↔ (Declaration.cls c).Holds x
  | ⟨_, _, _, fields, methods, _, _⟩, x => by
    have hfields : ∀ f : Field, (Declaration.field f).Holds x ↔ x = .field f :=
      fun _ => Declaration.holds_iff_eq rfl
    rw [Declaration.holds_iff]
    simp only [ClassDecl.walk, Declaration.inner, mem_append, or_and_right, exists_or]
    simp [under, declaration?, walkMethods_mem_declarations methods x, hfields, eq_comm]

theorem walkDecls_mem_declarations : ∀ (ds : List Decl) (x : Declaration),
    x ∈ (walkDecls (fun _ => true) ds).filterMap declaration? ↔
      ∃ y ∈ ds.map Decl.declaration, y.Holds x
  | [], x => by simp [walkDecls]
  | d :: ds, x => by
    rw [walkDecls, filterMap_append, mem_append, d.mem_declarations x,
      walkDecls_mem_declarations ds x, map_cons, exists_mem_cons_iff]

theorem walkMethods_mem_declarations : ∀ (ms : List Method) (x : Declaration),
    x ∈ (walkMethods (fun _ => true) ms).filterMap declaration? ↔
      ∃ y ∈ ms.map Declaration.method, y.Holds x
  | [], x => by simp [walkMethods]
  | ⟨r, offset⟩ :: ms, x => by
    rw [walkMethods, filterMap_append, mem_append, walkMethods_mem_declarations ms x,
      map_cons, exists_mem_cons_iff, Declaration.holds_iff, Declaration.inner,
      ← r.mem_declarations x]
    simp [Method.walk, under, declaration?]

end

/-- The reserved words. -/
def Text.reserved : List Text :=
  ["let", "in", "var", "fun", "class", "extends", "new", "null", "true", "false", "if", "then",
   "else", "print", "int", "bool"]

namespace Completion

end Completion

namespace Document

/-- The declarations of a text, none if it is malformed. -/
def declared (text : Text) : List Declaration :=
  match Program.parse text with
  | .ok p => p.declarations
  | .error _ => []

variable {word fragment : Text} {c : Completion} {d : Document}

end Document

end Foolscap
