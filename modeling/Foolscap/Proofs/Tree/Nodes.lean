import Foolscap.Scope.Resolve
import Foolscap.Tree.Declaration

/-!
# Nodes and what is below them

Every walk over a tree lists a node and then what is below it.  Resolving names changes what is
attached to the nodes, but neither the nodes nor their spans.
-/

namespace Foolscap

open List

/-! ### What is below a node -/

namespace Expr

/-- The expressions right inside an expression. -/
def operands : Expr → List Expr
  | missing | int .. | bool .. | null _ | id .. => []
  | binary _ _ l r => [l, r]
  | not _ e | print _ e => [e]
  | cond _ c t e => [c, t, e]
  | call _ _ as _ | new _ _ as _ | send _ _ _ as _ _ => as

/-- The nodes of an expression are the expression and those of its operands. -/
theorem walk_eq {e : Expr} (h : e ≠ missing) (descend : Node → Bool) :
    e.walk descend = Node.under descend (.expr e) (walkArgs descend e.operands) := by
  cases e <;> simp_all [walk, operands, walkArgs, Node.under]

end Expr

mutual

/-- The nodes of an expression are its parts. -/
theorem Expr.walk_eq_parts : ∀ e : Expr, (e.walk fun _ => true) = e.parts.map Node.expr
  | .missing | .int _ _ | .bool _ _ | .null _ | .id _ _ _ => rfl
  | .binary _ _ l r => by
    simp only [Expr.walk, Expr.parts, Node.under, if_true, map_cons, map_append,
      l.walk_eq_parts, r.walk_eq_parts]
  | .not _ e | .print _ e => by
    simp only [Expr.walk, Expr.parts, Node.under, if_true, map_cons, e.walk_eq_parts]
  | .cond _ c t e => by
    simp only [Expr.walk, Expr.parts, Node.under, if_true, map_cons, map_append,
      c.walk_eq_parts, t.walk_eq_parts, e.walk_eq_parts]
  | .call _ _ as _ | .new _ _ as _ | .send _ _ _ as _ _ => by
    simp only [Expr.walk, Expr.parts, Node.under, if_true, map_cons, walkArgs_eq_parts]

theorem walkArgs_eq_parts : ∀ es : List Expr,
    walkArgs (fun _ => true) es = (allParts es).map Node.expr
  | [] => rfl
  | e :: es => by
    simp only [walkArgs, allParts, map_append, e.walk_eq_parts, walkArgs_eq_parts es]

end

/-- The nodes below a node. -/
def Node.below : Node → List Node
  | program p => p.classes.flatMap (ClassDecl.walk fun _ => true) ++
      walkDecls (fun _ => true) p.decls ++ p.body.walk fun _ => true
  | cls c => c.fields.map Node.field ++ walkMethods (fun _ => true) c.methods
  | method m => m.routine.walkInside fun _ => true
  | fn r => r.walkInside fun _ => true
  | var v => v.value.walk fun _ => true
  | expr e => walkArgs (fun _ => true) e.operands
  | field _ => []
  | par _ => []

section

variable (descend : Node → Bool)

theorem ClassDecl.walk_eq (c : ClassDecl) :
    c.walk descend = Node.under descend (.cls c)
      (c.fields.map Node.field ++ walkMethods descend c.methods) := by
  obtain ⟨_, _, _, _, _, _, _⟩ := c
  rw [ClassDecl.walk]

end

theorem Program.nodes_eq (p : Program) : p.nodes = .program p :: (Node.program p).below := rfl

/-! ### Without bindings -/

mutual

/-- An expression without its bindings. -/
def Expr.unbound : Expr → Expr
  | .missing => .missing
  | .binary s op l r => .binary s op l.unbound r.unbound
  | .not s e => .not s e.unbound
  | .cond s c t e => .cond s c.unbound t.unbound e.unbound
  | .print s e => .print s e.unbound
  | .int s n => .int s n
  | .bool s b => .bool s b
  | .null s => .null s
  | .id s name _ => .id s name none
  | .call s name as _ => .call s name (unboundAll as) none
  | .new s name as _ => .new s name (unboundAll as) none
  | .send s receiver method as _ _ => .send s receiver method (unboundAll as) none none

/-- Expressions without their bindings. -/
def unboundAll : List Expr → List Expr
  | [] => []
  | e :: es => e.unbound :: unboundAll es

end

mutual

/-- A declaration without its bindings. -/
def Decl.unbound : Decl → Decl
  | .var v => .var { v with value := v.value.unbound }
  | .fn r => .fn r.unbound
  | .cls c => .cls c.unbound

/-- A function or method without its bindings. -/
def Routine.unbound : Routine → Routine
  | ⟨span, name, ret, params, decls, body⟩ =>
    ⟨span, name, ret, params, unboundDecls decls, body.unbound⟩

/-- A class without its bindings. -/
def ClassDecl.unbound : ClassDecl → ClassDecl
  | ⟨span, name, super, fields, methods, _, _⟩ =>
    ⟨span, name, super, fields.map fun f => { f with offset := 0 }, unboundMethods methods,
      none, none⟩

/-- Declarations without their bindings. -/
def unboundDecls : List Decl → List Decl
  | [] => []
  | d :: ds => d.unbound :: unboundDecls ds

/-- Methods without their bindings and slots. -/
def unboundMethods : List Method → List Method
  | [] => []
  | ⟨r, _⟩ :: ms => ⟨r.unbound, 0⟩ :: unboundMethods ms

end

/-- A program without its bindings. -/
def Program.unbound (p : Program) : Program :=
  ⟨p.span, p.classes.map ClassDecl.unbound, unboundDecls p.decls, p.body.unbound⟩

/-- A node without its bindings. -/
def Node.unbound : Node → Node
  | program p => program p.unbound
  | cls c => cls c.unbound
  | field f => field { f with offset := 0 }
  | method m => method ⟨m.routine.unbound, 0⟩
  | fn r => fn r.unbound
  | var v => var { v with value := v.value.unbound }
  | par p => par p
  | expr e => expr e.unbound

@[simp] theorem Node.span_unbound (n : Node) : n.unbound.span = n.span := by
  cases n with
  | cls c =>
    obtain ⟨_, _, _, _, _, _, _⟩ := c
    rfl
  | method m =>
    obtain ⟨⟨_, _, _, _, _, _⟩, _⟩ := m
    rfl
  | fn r =>
    obtain ⟨_, _, _, _, _, _⟩ := r
    rfl
  | expr e => cases e <;> rfl
  | program _ => rfl
  | field _ => rfl
  | var _ => rfl
  | par _ => rfl

/-! ### The nodes without bindings -/

mutual

/-- Taking away what was attached to the names changes each node in its place, and no node is added
or lost. -/
theorem Expr.walk_unbound : ∀ e : Expr,
    e.unbound.walk (fun _ => true) = (e.walk fun _ => true).map Node.unbound
  | .missing | .int _ _ | .bool _ _ | .null _ | .id _ _ _ => rfl
  | .binary _ _ l r => by
    simp only [Expr.unbound, Expr.walk, Node.under, if_true, map_cons, map_append,
      l.walk_unbound, r.walk_unbound]
    rfl
  | .not _ e | .print _ e => by
    simp only [Expr.unbound, Expr.walk, Node.under, if_true, map_cons, e.walk_unbound]
    rfl
  | .cond _ c t e => by
    simp only [Expr.unbound, Expr.walk, Node.under, if_true, map_cons, map_append,
      c.walk_unbound, t.walk_unbound, e.walk_unbound]
    rfl
  | .call _ _ as _ | .new _ _ as _ | .send _ _ _ as _ _ => by
    simp only [Expr.unbound, Expr.walk, Node.under, if_true, map_cons, walkArgs_unboundAll as]
    rfl

theorem walkArgs_unboundAll : ∀ es : List Expr,
    walkArgs (fun _ => true) (unboundAll es) = (walkArgs (fun _ => true) es).map Node.unbound
  | [] => rfl
  | e :: es => by
    simp only [unboundAll, walkArgs, map_append, e.walk_unbound, walkArgs_unboundAll es]

end

mutual

theorem Decl.walk_unbound : ∀ d : Decl,
    d.unbound.walk (fun _ => true) = (d.walk fun _ => true).map Node.unbound
  | .var v => by
    simp only [Decl.unbound, Decl.walk, Node.under, if_true, map_cons, v.value.walk_unbound]
    rfl
  | .fn r => by
    simp only [Decl.unbound, Decl.walk, Node.under, if_true, map_cons, r.walkInside_unbound]
    rfl
  | .cls c => by
    simp only [Decl.unbound, Decl.walk, c.walk_unbound]

theorem Routine.walkInside_unbound : ∀ r : Routine,
    r.unbound.walkInside (fun _ => true) = (r.walkInside fun _ => true).map Node.unbound
  | ⟨_, _, _, params, decls, body⟩ => by
    have hparams : (params.map Node.par).map Node.unbound = params.map Node.par := by
      rw [map_map]
      rfl
    simp only [Routine.unbound, Routine.walkInside, map_append, hparams,
      walkDecls_unbound decls, body.walk_unbound]

theorem ClassDecl.walk_unbound : ∀ c : ClassDecl,
    c.unbound.walk (fun _ => true) = (c.walk fun _ => true).map Node.unbound
  | ⟨_, _, _, fields, methods, _, _⟩ => by
    simp only [ClassDecl.unbound, ClassDecl.walk, Node.under, if_true, map_cons,
      map_append, map_map, walkMethods_unbound methods]
    rfl

theorem walkDecls_unbound : ∀ ds : List Decl,
    walkDecls (fun _ => true) (unboundDecls ds) = (walkDecls (fun _ => true) ds).map Node.unbound
  | [] => rfl
  | d :: ds => by
    simp only [unboundDecls, walkDecls, map_append, d.walk_unbound, walkDecls_unbound ds]

theorem walkMethods_unbound : ∀ ms : List Method,
    walkMethods (fun _ => true) (unboundMethods ms) =
      (walkMethods (fun _ => true) ms).map Node.unbound
  | [] => rfl
  | ⟨r, _⟩ :: ms => by
    simp only [unboundMethods, walkMethods, Method.walk, Node.under, if_true, map_append,
      map_cons, r.walkInside_unbound, walkMethods_unbound ms]
    rfl

end

/-- What is below a node without bindings. -/
theorem Node.below_unbound (n : Node) : n.unbound.below = n.below.map Node.unbound := by
  cases n with
  | program p =>
    have hclasses : (p.classes.map ClassDecl.unbound).flatMap (ClassDecl.walk fun _ => true) =
        (p.classes.flatMap (ClassDecl.walk fun _ => true)).map Node.unbound := by
      rw [flatMap_map, map_flatMap]
      exact congrArg (List.flatMap · _) (funext ClassDecl.walk_unbound)
    simp only [unbound, below, Program.unbound, map_append, hclasses, walkDecls_unbound,
      Expr.walk_unbound]
  | cls c =>
    obtain ⟨_, _, _, fields, methods, _, _⟩ := c
    simp only [unbound, ClassDecl.unbound, below, map_append, map_map,
      walkMethods_unbound]
    rfl
  | method m => exact m.routine.walkInside_unbound
  | fn r => exact r.walkInside_unbound
  | var v => exact v.value.walk_unbound
  | expr e =>
    have hoperands : e.unbound.operands = unboundAll e.operands := by cases e <;> rfl
    simp only [unbound, below, hoperands, walkArgs_unboundAll]
  | field _ => rfl
  | par _ => rfl

/-- The nodes of a program without bindings. -/
theorem Program.nodes_unbound (p : Program) : p.unbound.nodes = p.nodes.map Node.unbound := by
  rw [nodes_eq, nodes_eq, map_cons, ← Node.below_unbound]
  rfl

/-! ### Resolving names -/

mutual

theorem Expr.unbound_bind (s : Scopes) : ∀ e : Expr, (e.bind s).unbound = e.unbound
  | .missing | .int _ _ | .bool _ _ | .null _ | .id _ _ _ => rfl
  | .binary _ _ l r => by simp only [Expr.bind, Expr.unbound, l.unbound_bind, r.unbound_bind]
  | .not _ e | .print _ e => by simp only [Expr.bind, Expr.unbound, e.unbound_bind]
  | .cond _ c t e => by
    simp only [Expr.bind, Expr.unbound, c.unbound_bind, t.unbound_bind, e.unbound_bind]
  | .call _ _ as _ | .new _ _ as _ | .send _ _ _ as _ _ => by
    simp only [Expr.bind, Expr.unbound, unboundAll_bindAll s as]

theorem unboundAll_bindAll (s : Scopes) : ∀ es : List Expr,
    unboundAll (bindAll s es) = unboundAll es
  | [] => rfl
  | e :: es => by simp only [bindAll, unboundAll, e.unbound_bind, unboundAll_bindAll s es]

end

/-- Laying out fields only sets their offsets. -/
theorem Resolver.fields_unbound (R : Resolver) (cls : Text) (level : Nat) (l : Layout)
    (fs : List Field) :
    (R.fields cls level l fs).1.map (fun f => { f with offset := 0 }) =
      fs.map fun f => { f with offset := 0 } := by
  induction fs generalizing R l with
  | nil => rfl
  | cons f fs ih => simp only [Resolver.fields, map_cons, ih]

theorem Resolver.header_unbound (R : Resolver) (c : ClassDecl) :
    (R.header c).1.map (fun f => { f with offset := 0 }) =
      c.fields.map fun f => { f with offset := 0 } := by
  rw [Resolver.header]
  exact fields_unbound _ _ _ _ _

mutual

theorem Decl.resolve_unbound : ∀ (d : Decl) (R : Resolver), (d.resolve R).1.unbound = d.unbound
  | .var v, R => by
    simp only [Decl.resolve, Resolver.expr, Decl.unbound, Expr.unbound_bind]
  | .fn r, R => by
    simp only [Decl.resolve, Decl.unbound, r.resolveInside_unbound (R.fn r)]
  | .cls c, R => by
    simp only [Decl.resolve, Decl.unbound, c.resolve_unbound R]

theorem Routine.resolveInside_unbound : ∀ (r : Routine) (R : Resolver),
    (r.resolveInside R).1.unbound = r.unbound
  | ⟨_, _, _, params, decls, body⟩, R => by
    simp only [Routine.resolveInside, Routine.unbound, resolveDecls_unbound decls, Resolver.expr,
      Expr.unbound_bind]

theorem ClassDecl.resolve_unbound : ∀ (c : ClassDecl) (R : Resolver),
    (c.resolve R).1.unbound = c.unbound
  | ⟨span, name, super, fields, methods, entry, superEntry⟩, R => by
    simp only [ClassDecl.resolve, ClassDecl.unbound, Resolver.header_unbound,
      resolveMethods_unbound methods]

theorem resolveDecls_unbound : ∀ (ds : List Decl) (R : Resolver),
    unboundDecls (resolveDecls R ds).1 = unboundDecls ds
  | [], _ => by rw [resolveDecls]
  | d :: ds, R => by
    simp only [resolveDecls, unboundDecls, d.resolve_unbound R, resolveDecls_unbound ds]

theorem resolveMethods_unbound : ∀ (ms : List Method) (R : Resolver) (offsets : List Int),
    unboundMethods (resolveMethods R offsets ms).1 = unboundMethods ms
  | [], _, _ => by rw [resolveMethods]
  | ⟨r, _⟩ :: ms, R, offsets => by
    simp only [resolveMethods, unboundMethods, r.resolveInside_unbound R,
      resolveMethods_unbound ms]

end

theorem resolveClasses_unbound (cs : List ClassDecl) (R : Resolver) :
    (resolveClasses R cs).1.map ClassDecl.unbound = cs.map ClassDecl.unbound := by
  induction cs generalizing R with
  | nil => rfl
  | cons c cs ih =>
    rw [resolveClasses, map_cons, map_cons, ih, ClassDecl.resolve_unbound]

/-- Resolving names attaches bindings and does nothing else to a program. -/
theorem Program.resolve_unbound (context : Context) (p : Program) :
    (p.resolve context).program.unbound = p.unbound := by
  simp only [Program.resolve, Program.unbound, resolveClasses_unbound, resolveDecls_unbound,
    Resolver.expr, Expr.unbound_bind]

/-- A resolved program has the nodes that the program has. -/
theorem Program.nodes_resolve (context : Context) (p : Program) :
    (p.resolve context).program.nodes.map Node.unbound = p.nodes.map Node.unbound := by
  rw [← nodes_unbound, resolve_unbound, nodes_unbound]

end Foolscap
