import Foolscap.Proofs.Assembly.Emission

/-!
# Declared routines and their labels

The functions and methods that a program declares, in the order in which they are written: a
routine comes before those inside it.  Their labels are numbered in that order, whatever else is
generated in between, and the code of each of them is found among the routines.
-/

namespace Foolscap

open List

/-- A function or method that a program declares: the class of which it is a method, if it is one,
the routine itself, and the label of its code. -/
structure Callable where
  owner : Option Text
  routine : Routine
  label : Label

/-! ### What a program declares -/

mutual

/-- The routines in a declaration, of which the first one has a given number. -/
def Decl.callables (n : Nat) : Decl → List Callable
  | .var _ => []
  | .fn r => r.callables none n
  | .cls ⟨_, name, _, _, methods, _, _⟩ => methodCallables name n methods

/-- A routine and those inside it. -/
def Routine.callables (owner : Option Text) (n : Nat) : Routine → List Callable
  | ⟨span, name, ret, params, decls, body⟩ =>
    ⟨owner, ⟨span, name, ret, params, decls, body⟩, .routine n⟩ :: innerCallables (n + 1) decls

/-- The routines in some declarations. -/
def innerCallables (n : Nat) : List Decl → List Callable
  | [] => []
  | d :: ds => d.callables n ++ innerCallables (n + (d.callables n).length) ds

/-- The methods of a class and the routines inside them. -/
def methodCallables (cls : Text) (n : Nat) : List Method → List Callable
  | [] => []
  | ⟨r, _⟩ :: ms =>
    r.callables (some cls) n ++
      methodCallables cls (n + (r.callables (some cls) n).length) ms

end

/-- The methods of classes and the routines inside them. -/
def classCallables (n : Nat) : List ClassDecl → List Callable
  | [] => []
  | c :: cs =>
    methodCallables c.name n c.methods ++
      classCallables (n + (methodCallables c.name n c.methods).length) cs

/-- The methods and functions of a program. -/
def Program.callables (p : Program) : List Callable :=
  classCallables 0 p.classes ++ innerCallables (classCallables 0 p.classes).length p.decls

/-! ### What is generated for it -/

/-- The code of a routine is among some lines. -/
def Callable.EmittedIn (x : Callable) (lines : List Line) : Prop :=
  ∃ g before after, lines = before ++ (Code.routine x.label x.routine.decls.length
    x.routine.params.length ((codeDecls g x.routine.decls).1 ++
      ((codeDecls g x.routine.decls).2.expr x.routine.body).1) ++ after)

theorem Callable.EmittedIn.mono {x : Callable} {lines lines' : List Line}
    (h : x.EmittedIn lines) (hkept : lines <+: lines') : x.EmittedIn lines' := by
  obtain ⟨g, before, after, rfl⟩ := h
  obtain ⟨more, rfl⟩ := hkept
  exact ⟨g, before, after ++ more, by simp only [append_assoc]⟩

/-- Between two states of the generator some routines were declared: their labels are the ones taken
in between, and their code was added. -/
structure Emitter.Declares (g g' : Emitter) (ds : List Callable) : Prop where
  next : g'.nextRoutine = g.nextRoutine + ds.length
  labels : ds.map Callable.label = (List.range' g.nextRoutine ds.length).map Label.routine
  kept : g.routines <+: g'.routines
  emitted : ∀ x ∈ ds, x.EmittedIn g'.routines

namespace Emitter.Declares

variable {g g' g'' : Emitter} {ds ds' : List Callable}

theorem refl (g : Emitter) : g.Declares g [] :=
  ⟨rfl, rfl, prefix_rfl, fun _ hx => absurd hx not_mem_nil⟩

theorem append (h : g.Declares g' ds) (h' : g'.Declares g'' ds') : g.Declares g'' (ds ++ ds') := by
  refine ⟨?_, ?_, h.kept.trans h'.kept, ?_⟩
  · rw [h'.next, h.next, length_append, Nat.add_assoc]
  · rw [map_append, h.labels, h'.labels, h.next, length_append, ← List.range'_append_1,
      map_append]
  · intro x hx
    rcases mem_append.mp hx with hx | hx
    · exact (h.emitted x hx).mono h'.kept
    · exact h'.emitted x hx

theorem expr (g : Emitter) (e : Expr) : g.Declares (g.expr e).2 [] :=
  ⟨rfl, rfl, prefix_rfl, fun _ hx => absurd hx not_mem_nil⟩

/-- A routine is declared before what is inside it, and its code comes after that. -/
theorem emit {r : Routine} {owner : Option Text}
    (h : g.takeRoutine.2.Declares (codeDecls g.takeRoutine.2 r.decls).2 ds) :
    g.Declares (r.emit g.takeRoutine.1 g.takeRoutine.2) (⟨owner, r, g.takeRoutine.1⟩ :: ds) := by
  obtain ⟨span, name, ret, params, decls, body⟩ := r
  have hinside := h.append (.expr _ body)
  rw [append_nil] at hinside
  rw [Routine.emit]
  refine ⟨?_, ?_, hinside.kept.trans (prefix_append _ _), ?_⟩
  · rw [length_cons, Nat.add_comm ds.length 1, ← Nat.add_assoc]
    exact hinside.next
  · rw [map_cons, length_cons, List.range'_succ, map_cons, hinside.labels]
    rfl
  · intro x hx
    rcases mem_cons.mp hx with rfl | hx
    · exact ⟨g.takeRoutine.2, _, [], by rw [append_nil]⟩
    · exact (hinside.emitted x hx).mono (prefix_append _ _)

end Emitter.Declares

mutual

/-- A declaration generates a routine for each function in it, in the order in which they are
written. -/
theorem Decl.code_declares : ∀ (d : Decl) (g : Emitter),
    g.Declares (d.code g).2 (d.callables g.nextRoutine)
  | .var v, g => by
    rw [Decl.code, Decl.callables]
    exact .expr g v.value
  | .fn r, g => by
    rw [Decl.code, Decl.callables]
    exact Routine.emit_declares none r g
  | .cls c, g => by
    obtain ⟨_, name, super, _, methods, _, _⟩ := c
    have h := emitMethods_declares name methods g (g.inherited super)
    rw [Decl.code, ClassDecl.code, Decl.callables]
    exact ⟨h.next, h.labels, h.kept, h.emitted⟩

/-- A routine is generated with its label and after those inside it. -/
theorem Routine.emit_declares (owner : Option Text) : ∀ (r : Routine) (g : Emitter),
    g.Declares (r.emit g.takeRoutine.1 g.takeRoutine.2) (r.callables owner g.nextRoutine)
  | ⟨span, name, ret, params, decls, body⟩, g => by
    rw [Routine.callables]
    exact .emit (codeDecls_declares decls g.takeRoutine.2)

theorem codeDecls_declares : ∀ (ds : List Decl) (g : Emitter),
    g.Declares (codeDecls g ds).2 (innerCallables g.nextRoutine ds)
  | [], g => by
    rw [codeDecls, innerCallables]
    exact .refl g
  | d :: ds, g => by
    have h := Decl.code_declares d g
    have h' := codeDecls_declares ds (d.code g).2
    rw [h.next] at h'
    rw [codeDecls, innerCallables]
    exact h.append h'

/-- The methods of a class are declared under its name, in order, each followed by the functions in
it. -/
theorem emitMethods_declares (cls : Text) : ∀ (ms : List Method) (g : Emitter) (table : List Slot),
    g.Declares (emitMethods g table ms).2 (methodCallables cls g.nextRoutine ms)
  | [], g, table => by
    rw [emitMethods, methodCallables]
    exact .refl g
  | ⟨r, offset⟩ :: ms, g, table => by
    have h := Routine.emit_declares (some cls) r g
    have h' := emitMethods_declares cls ms (r.emit g.takeRoutine.1 g.takeRoutine.2)
      (Code.setSlot table offset.toNat g.takeRoutine.1)
    rw [h.next] at h'
    rw [emitMethods, methodCallables]
    exact h.append h'

end

theorem ClassDecl.code_declares (c : ClassDecl) (g : Emitter) :
    g.Declares (c.code g).2 (methodCallables c.name g.nextRoutine c.methods) := by
  obtain ⟨_, name, super, _, methods, _, _⟩ := c
  have h := emitMethods_declares name methods g (g.inherited super)
  rw [ClassDecl.code]
  exact ⟨h.next, h.labels, h.kept, h.emitted⟩

theorem codeClasses_declares (cs : List ClassDecl) (g : Emitter) :
    g.Declares (codeClasses g cs).2 (classCallables g.nextRoutine cs) := by
  induction cs generalizing g with
  | nil => exact .refl g
  | cons c cs ih =>
    have h := c.code_declares g
    have h' := ih (c.code g).2
    rw [h.next] at h'
    rw [codeClasses, classCallables]
    exact h.append h'

namespace Program

/-- The code of a program declares its methods and functions. -/
theorem code_declares (p : Program) :
    Emitter.Declares {} (codeDecls (codeClasses {} p.classes).2 p.decls).2 p.callables := by
  have h := codeClasses_declares p.classes {}
  have h' := codeDecls_declares p.decls (codeClasses {} p.classes).2
  rw [h.next] at h'
  rw [callables]
  rw [show (0 : Nat) = ({} : Emitter).nextRoutine from rfl, ← Nat.zero_add (List.length _)]
  exact h.append h'

/-- The labels of the declarations are consecutive. -/
theorem callables_labels (p : Program) :
    p.callables.map Callable.label = (List.range p.callables.length).map Label.routine := by
  rw [range_eq_range']
  exact p.code_declares.labels

/-- No two declarations have one label. -/
theorem nodup_labels (p : Program) : (p.callables.map Callable.label).Nodup := by
  rw [callables_labels]
  refine List.Pairwise.map _ ?_ nodup_range
  intro i j hij heq
  exact hij (Label.routine.inj heq)

/-- The code of every declaration is among the routines. -/
theorem emitted_of_mem_callables {p : Program} {x : Callable} (hx : x ∈ p.callables) :
    x.EmittedIn (p.code {}).routines :=
  p.code_declares.emitted x hx

end Program

end Foolscap
