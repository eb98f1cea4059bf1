import Foolscap.Proofs.Tree.Nodes

/-!
# Renamed programs

A program with other names: all names of variables, parameters, functions, classes, fields and
methods are replaced, where they are declared, where they are used and where they occur in types.
What is attached to the tree is renamed with it.

## Design Notes

Properties of the compiler are shown for renamings of all texts.  A renaming that is one to one on
the names of one program only is extended first, which does not change what it does to that
program.
-/

namespace Foolscap

open List

/-! ### Types -/

namespace Ty

mutual

/-- A type with other class names.  A reference that lacks the name of its class names none. -/
def rename (r : Text → Text) : Ty → Ty
  | int => int
  | bool => bool
  | null => null
  | ref name => if name.isEmpty then ref name else ref (r name)
  | arrow params ret => arrow (renameAll r params) (rename r ret)
  | cls origin fields methods => cls origin (renameAll r fields) (renameAll r methods)
  | missing shape => missing shape

/-- Types with other class names. -/
def renameAll (r : Text → Text) : List Ty → List Ty
  | [] => []
  | t :: ts => rename r t :: renameAll r ts

end

mutual

/-- The class names in a type. -/
def names : Ty → List Text
  | int => []
  | bool => []
  | null => []
  | ref name => if name.isEmpty then [] else [name]
  | arrow params ret => allNames params ++ names ret
  | cls _ fields methods => allNames fields ++ allNames methods
  | missing _ => []

/-- The class names in types. -/
def allNames : List Ty → List Text
  | [] => []
  | t :: ts => names t ++ allNames ts

end

theorem renameAll_eq_map (r : Text → Text) (ts : List Ty) : renameAll r ts = ts.map (rename r) := by
  induction ts with
  | nil => rfl
  | cons t ts ih => rw [renameAll, ih, map_cons]

variable {r s : Text → Text}

mutual

/-- Of a renaming, only what it does to the names in a type matters. -/
theorem rename_eq_rename_iff : ∀ t : Ty, t.rename r = t.rename s ↔ ∀ n ∈ t.names, r n = s n
  | int | bool | null | missing _ => by simp [rename, names]
  | ref name => by
    rw [rename, rename, names]
    split <;> simp
  | arrow params ret => by
    simp only [rename, names, arrow.injEq, mem_append, or_imp, forall_and,
      renameAll_eq_renameAll_iff params, rename_eq_rename_iff ret]
  | cls _ fields methods => by
    simp only [rename, names, cls.injEq, true_and, mem_append, or_imp, forall_and,
      renameAll_eq_renameAll_iff fields, renameAll_eq_renameAll_iff methods]

theorem renameAll_eq_renameAll_iff : ∀ ts : List Ty,
    renameAll r ts = renameAll s ts ↔ ∀ n ∈ allNames ts, r n = s n
  | [] => by simp [renameAll, allNames]
  | t :: ts => by
    simp only [renameAll, allNames, List.cons.injEq, mem_append, or_imp, forall_and,
      rename_eq_rename_iff t, renameAll_eq_renameAll_iff ts]

end

mutual

/-- Types do not refer to classes without a name. -/
theorem ne_nil_of_mem_names {n : Text} : ∀ {t : Ty}, n ∈ t.names → n ≠ []
  | int, h | bool, h | null, h | missing _, h => by cases h
  | ref name, h => by
    rw [names] at h
    split at h
    · cases h
    · next hne =>
      rw [mem_singleton.mp h]
      simpa using hne
  | arrow _ _, h => (mem_append.mp h).elim ne_nil_of_mem_allNames ne_nil_of_mem_names
  | cls _ _ _, h => (mem_append.mp h).elim ne_nil_of_mem_allNames ne_nil_of_mem_allNames

theorem ne_nil_of_mem_allNames {n : Text} : ∀ {ts : List Ty}, n ∈ allNames ts → n ≠ []
  | [], h => nomatch h
  | _ :: _, h => (mem_append.mp h).elim ne_nil_of_mem_names ne_nil_of_mem_allNames

end

end Ty

/-- An entry with other class names in its type. -/
def Entry.rename (r : Text → Text) (e : Entry) : Entry := { e with ty := e.ty.rename r }

/-- A use of such an entry. -/
def Use.rename (r : Text → Text) (u : Use) : Use := { u with entry := u.entry.rename r }

/-! ### Trees -/

mutual

/-- An expression with other names. -/
def Expr.rename (r : Text → Text) : Expr → Expr
  | .missing => .missing
  | .binary sp op left right => .binary sp op (left.rename r) (right.rename r)
  | .not sp e => .not sp (e.rename r)
  | .cond sp test yes no => .cond sp (test.rename r) (yes.rename r) (no.rename r)
  | .print sp e => .print sp (e.rename r)
  | .int sp n => .int sp n
  | .bool sp b => .bool sp b
  | .null sp => .null sp
  | .id sp name u => .id sp (r name) (u.map (Use.rename r))
  | .call sp name as u => .call sp (r name) (renameArgs r as) (u.map (Use.rename r))
  | .new sp name as e => .new sp (r name) (renameArgs r as) (e.map (Entry.rename r))
  | .send sp receiver method as u t =>
    .send sp (r receiver) (r method) (renameArgs r as) (u.map (Use.rename r))
      (t.map (Entry.rename r))

/-- Expressions with other names. -/
def renameArgs (r : Text → Text) : List Expr → List Expr
  | [] => []
  | e :: es => e.rename r :: renameArgs r es

end

/-- A written type with other class names. -/
def Annotation.rename (r : Text → Text) (a : Annotation) : Annotation :=
  { a with ty := a.ty.rename r }

/-- A parameter with another name. -/
def Param.rename (r : Text → Text) (p : Param) : Param :=
  { p with name := r p.name, annotation := p.annotation.rename r }

/-- A field with another name. -/
def Field.rename (r : Text → Text) (f : Field) : Field :=
  { f with name := r f.name, annotation := f.annotation.rename r }

/-- A variable with another name. -/
def VarDecl.rename (r : Text → Text) (v : VarDecl) : VarDecl :=
  { v with name := r v.name, annotation := v.annotation.rename r, value := v.value.rename r }

mutual

/-- A declaration with other names. -/
def Decl.rename (r : Text → Text) : Decl → Decl
  | .var v => .var (v.rename r)
  | .fn f => .fn (f.rename r)
  | .cls c => .cls (c.rename r)

/-- A function or method with other names. -/
def Routine.rename (r : Text → Text) : Routine → Routine
  | ⟨span, name, ret, params, decls, body⟩ =>
    ⟨span, r name, ret.rename r, params.map (Param.rename r), renameDecls r decls, body.rename r⟩

/-- A class with other names. -/
def ClassDecl.rename (r : Text → Text) : ClassDecl → ClassDecl
  | ⟨span, name, super, fields, methods, entry, superEntry⟩ =>
    ⟨span, r name, super.map r, fields.map (Field.rename r), renameMethods r methods,
      entry.map (Entry.rename r), superEntry.map (Entry.rename r)⟩

/-- Declarations with other names. -/
def renameDecls (r : Text → Text) : List Decl → List Decl
  | [] => []
  | d :: ds => d.rename r :: renameDecls r ds

/-- Methods with other names. -/
def renameMethods (r : Text → Text) : List Method → List Method
  | [] => []
  | ⟨routine, offset⟩ :: ms => ⟨routine.rename r, offset⟩ :: renameMethods r ms

end

/-- A program with other names. -/
def Program.rename (r : Text → Text) (p : Program) : Program :=
  ⟨p.span, p.classes.map (ClassDecl.rename r), renameDecls r p.decls, p.body.rename r⟩

/-! ### Names that occur -/

/-- The names in what may be attached to a node. -/
def Entry.names (e : Option Entry) : List Text := e.toList.flatMap fun e => e.ty.names

/-- The names that an expression itself holds. -/
def Expr.names : Expr → List Text
  | id _ name u => name :: Entry.names (u.map Use.entry)
  | call _ name _ u => name :: Entry.names (u.map Use.entry)
  | new _ name _ e => name :: Entry.names e
  | send _ receiver method _ u t =>
    receiver :: method :: (Entry.names (u.map Use.entry) ++ Entry.names t)
  | _ => []

/-- The names that a node itself holds: those that are written there, and those in the types of
what is attached to it. -/
def Node.names : Node → List Text
  | program _ => []
  | cls c => c.name :: (c.super.toList ++ (Entry.names c.entry ++ Entry.names c.superEntry))
  | field f => f.name :: f.annotation.ty.names
  | method m => m.routine.name :: m.routine.ret.ty.names
  | fn r => r.name :: r.ret.ty.names
  | var v => v.name :: v.annotation.ty.names
  | par p => p.name :: p.annotation.ty.names
  | expr e => e.names

/-- The names that occur in a program. -/
def Program.names (p : Program) : List Text := p.nodes.flatMap Node.names

/-- Two renamings do the same to the names that nodes hold. -/
def Node.Agree (r s : Text → Text) (ns : List Node) : Prop :=
  ∀ n ∈ ns, ∀ name ∈ n.names, r name = s name

section

variable {r s : Text → Text}

theorem Node.agree_append {ns ms : List Node} :
    Node.Agree r s (ns ++ ms) ↔ Node.Agree r s ns ∧ Node.Agree r s ms := forall_mem_append

theorem Node.agree_cons {n : Node} {ns : List Node} :
    Node.Agree r s (n :: ns) ↔ (∀ name ∈ n.names, r name = s name) ∧ Node.Agree r s ns :=
  forall_mem_cons

theorem Entry.rename_congr {e : Option Entry} (h : ∀ name ∈ Entry.names e, r name = s name) :
    e.map (Entry.rename r) = e.map (Entry.rename s) := by
  cases e with
  | none => rfl
  | some e =>
    have hty := (Ty.rename_eq_rename_iff e.ty).mpr (by simpa [Entry.names] using h)
    rw [Option.map_some, Option.map_some, Entry.rename, Entry.rename, hty]

theorem Use.rename_congr {u : Option Use}
    (h : ∀ name ∈ Entry.names (u.map Use.entry), r name = s name) :
    u.map (Use.rename r) = u.map (Use.rename s) := by
  cases u with
  | none => rfl
  | some u =>
    have hentry := Option.some.inj (Entry.rename_congr h)
    rw [Option.map_some, Option.map_some, Use.rename, Use.rename, hentry]

mutual

/-- Renaming looks only at the names that occur.  So a renaming that is one to one on them can be
replaced by one that is so on all texts. -/
theorem Expr.rename_congr : ∀ e : Expr,
    Node.Agree r s (e.walk fun _ => true) → e.rename r = e.rename s
  | .missing, _ | .int _ _, _ | .bool _ _, _ | .null _, _ => rfl
  | .binary _ _ left right, h => by
    obtain ⟨-, hparts⟩ := Node.agree_cons.mp h
    obtain ⟨hleft, hright⟩ := Node.agree_append.mp hparts
    rw [Expr.rename, Expr.rename, left.rename_congr hleft, right.rename_congr hright]
  | .not _ e, h | .print _ e, h => by
    rw [Expr.rename, Expr.rename, e.rename_congr (Node.agree_cons.mp h).2]
  | .cond _ test yes no, h => by
    obtain ⟨-, hparts⟩ := Node.agree_cons.mp h
    obtain ⟨hfirst, hno⟩ := Node.agree_append.mp hparts
    obtain ⟨htest, hyes⟩ := Node.agree_append.mp hfirst
    rw [Expr.rename, Expr.rename, test.rename_congr htest, yes.rename_congr hyes,
      no.rename_congr hno]
  | .id _ _ _, h => by
    obtain ⟨hname, huse⟩ := forall_mem_cons.mp (Node.agree_cons.mp h).1
    rw [Expr.rename, Expr.rename, hname, Use.rename_congr huse]
  | .call _ _ as _, h => by
    obtain ⟨hown, has⟩ := Node.agree_cons.mp h
    obtain ⟨hname, huse⟩ := forall_mem_cons.mp hown
    rw [Expr.rename, Expr.rename, hname, Use.rename_congr huse, renameArgs_congr as has]
  | .new _ _ as _, h => by
    obtain ⟨hown, has⟩ := Node.agree_cons.mp h
    obtain ⟨hname, hentry⟩ := forall_mem_cons.mp hown
    rw [Expr.rename, Expr.rename, hname, Entry.rename_congr hentry, renameArgs_congr as has]
  | .send _ _ _ as _ _, h => by
    obtain ⟨hown, has⟩ := Node.agree_cons.mp h
    obtain ⟨hreceiver, hown⟩ := forall_mem_cons.mp hown
    obtain ⟨hmethod, hbound⟩ := forall_mem_cons.mp hown
    obtain ⟨huse, htarget⟩ := forall_mem_append.mp hbound
    rw [Expr.rename, Expr.rename, hreceiver, hmethod, Use.rename_congr huse,
      Entry.rename_congr htarget, renameArgs_congr as has]

theorem renameArgs_congr : ∀ es : List Expr,
    Node.Agree r s (walkArgs (fun _ => true) es) → renameArgs r es = renameArgs s es
  | [], _ => rfl
  | e :: es, h => by
    obtain ⟨hfirst, hrest⟩ := Node.agree_append.mp h
    rw [renameArgs, renameArgs, e.rename_congr hfirst, renameArgs_congr es hrest]

end

theorem Annotation.rename_congr {a : Annotation} (h : ∀ name ∈ a.ty.names, r name = s name) :
    a.rename r = a.rename s := by
  rw [Foolscap.Annotation.rename, Foolscap.Annotation.rename, (Ty.rename_eq_rename_iff a.ty).mpr h]

theorem Param.rename_congr {ps : List Param} (h : Node.Agree r s (ps.map Node.par)) :
    ps.map (Param.rename r) = ps.map (Param.rename s) := by
  refine map_congr_left fun p hp => ?_
  obtain ⟨hname, hty⟩ := forall_mem_cons.mp (h _ (mem_map_of_mem hp))
  rw [Param.rename, Param.rename, hname, Annotation.rename_congr hty]

theorem Field.rename_congr {fs : List Field} (h : Node.Agree r s (fs.map Node.field)) :
    fs.map (Field.rename r) = fs.map (Field.rename s) := by
  refine map_congr_left fun f hf => ?_
  obtain ⟨hname, hty⟩ := forall_mem_cons.mp (h _ (mem_map_of_mem hf))
  rw [Field.rename, Field.rename, hname, Annotation.rename_congr hty]

mutual

theorem Decl.rename_congr : ∀ d : Decl,
    Node.Agree r s (d.walk fun _ => true) → d.rename r = d.rename s
  | .var v, h => by
    obtain ⟨hown, hvalue⟩ := Node.agree_cons.mp h
    obtain ⟨hname, hty⟩ := forall_mem_cons.mp hown
    rw [Decl.rename, Decl.rename, VarDecl.rename, VarDecl.rename, hname,
      Annotation.rename_congr hty, v.value.rename_congr hvalue]
  | .fn f, h => by
    obtain ⟨hown, hinside⟩ := Node.agree_cons.mp h
    rw [Decl.rename, Decl.rename, f.rename_congr hown hinside]
  | .cls c, h => by rw [Decl.rename, Decl.rename, c.rename_congr h]

theorem Routine.rename_congr : ∀ f : Routine, (∀ name ∈ (Node.fn f).names, r name = s name) →
    Node.Agree r s (f.walkInside fun _ => true) → f.rename r = f.rename s
  | ⟨_, _, _, params, decls, body⟩, hown, hinside => by
    obtain ⟨hname, hret⟩ := forall_mem_cons.mp hown
    obtain ⟨hfirst, hbody⟩ := Node.agree_append.mp hinside
    obtain ⟨hparams, hdecls⟩ := Node.agree_append.mp hfirst
    rw [Routine.rename, Routine.rename, hname, Annotation.rename_congr hret,
      Param.rename_congr hparams, renameDecls_congr decls hdecls, body.rename_congr hbody]

theorem ClassDecl.rename_congr : ∀ c : ClassDecl,
    Node.Agree r s (c.walk fun _ => true) → c.rename r = c.rename s
  | ⟨_, _, super, _, methods, _, _⟩, h => by
    obtain ⟨hown, hparts⟩ := Node.agree_cons.mp h
    obtain ⟨hname, hown⟩ := forall_mem_cons.mp hown
    obtain ⟨hsuper, hbound⟩ := forall_mem_append.mp hown
    obtain ⟨hentry, hsuperEntry⟩ := forall_mem_append.mp hbound
    obtain ⟨hfields, hmethods⟩ := Node.agree_append.mp hparts
    have hsuper' : super.map r = super.map s := by
      cases super with
      | none => rfl
      | some n => rw [Option.map_some, Option.map_some, hsuper n (by simp)]
    rw [ClassDecl.rename, ClassDecl.rename, hname, hsuper', Field.rename_congr hfields,
      renameMethods_congr methods hmethods, Entry.rename_congr hentry,
      Entry.rename_congr hsuperEntry]

theorem renameDecls_congr : ∀ ds : List Decl,
    Node.Agree r s (walkDecls (fun _ => true) ds) → renameDecls r ds = renameDecls s ds
  | [], _ => rfl
  | d :: ds, h => by
    obtain ⟨hfirst, hrest⟩ := Node.agree_append.mp h
    rw [renameDecls, renameDecls, d.rename_congr hfirst, renameDecls_congr ds hrest]

theorem renameMethods_congr : ∀ ms : List Method,
    Node.Agree r s (walkMethods (fun _ => true) ms) → renameMethods r ms = renameMethods s ms
  | [], _ => rfl
  | ⟨f, _⟩ :: ms, h => by
    obtain ⟨hfirst, hrest⟩ := Node.agree_append.mp h
    obtain ⟨hown, hinside⟩ := Node.agree_cons.mp hfirst
    rw [renameMethods, renameMethods, f.rename_congr hown hinside, renameMethods_congr ms hrest]

end

/-- Of a renaming, only what it does to the names that occur in a program matters. -/
theorem Program.rename_congr {p : Program} (h : ∀ name ∈ p.names, r name = s name) :
    p.rename r = p.rename s := by
  have hnodes : Node.Agree r s p.nodes := fun n hn name hname =>
    h name (mem_flatMap.mpr ⟨n, hn, hname⟩)
  obtain ⟨hfirst, hbody⟩ := Node.agree_append.mp (Node.agree_cons.mp hnodes).2
  obtain ⟨hclasses, hdecls⟩ := Node.agree_append.mp hfirst
  have hclasses' : p.classes.map (ClassDecl.rename r) = p.classes.map (ClassDecl.rename s) :=
    map_congr_left fun c hc => c.rename_congr fun n hn =>
      hclasses n (mem_flatMap.mpr ⟨c, hc, hn⟩)
  rw [Program.rename, Program.rename, hclasses', renameDecls_congr p.decls hdecls,
    p.body.rename_congr hbody]

end

/-! ### Renamings of all texts -/

/-- A way to replace all texts, one to one, where the empty text stays. -/
structure IsRenaming (r : Text → Text) : Prop where
  injective : Function.Injective r
  nil : r [] = []

namespace IsRenaming

variable {r : Text → Text} (h : IsRenaming r)

include h

theorem eq_iff {a b : Text} : r a = r b ↔ a = b := h.injective.eq_iff

theorem isEmpty (a : Text) : (r a).isEmpty = a.isEmpty := by
  rw [Bool.eq_iff_iff, List.isEmpty_iff, List.isEmpty_iff]
  exact ⟨fun ha => h.injective (ha.trans h.nil.symm), fun ha => by rw [ha, h.nil]⟩

@[simp] theorem ref (name : Text) : (Ty.ref name).rename r = .ref (r name) := by
  rw [Ty.rename]
  split
  · next hnil => rw [List.isEmpty_iff.mp hnil, h.nil]
  · rfl

end IsRenaming

namespace Text

/-- Replace some names in one way, and all other texts by texts that are longer than what these
names are replaced by.  A byte tells how. -/
def extend (names : List Text) (r : Text → Text) (b : UInt8) (n : Text) : Text :=
  if n ∈ names then r n
  else if n = [] then []
  else (names.map r).flatten ++ b :: n

variable {names : List Text} {r : Text → Text} {b : UInt8}

theorem extend_of_mem {n : Text} (h : n ∈ names) : extend names r b n = r n := if_pos h

theorem extend_of_notMem {n : Text} (h : n ∉ names) (hne : n ≠ []) :
    extend names r b n = (names.map r).flatten ++ b :: n := by
  rw [extend, if_neg h, if_neg hne]

/-- Ways that differ in the byte differ on all other texts. -/
theorem mem_of_extend_eq {n : Text} (hne : n ≠ []) (h : extend names r 0 n = extend names r 1 n) :
    n ∈ names := by
  refine Decidable.byContradiction fun hn => ?_
  rw [extend_of_notMem hn hne, extend_of_notMem hn hne] at h
  cases append_cancel_left h

/-- A replaced name is shorter than the texts that the others are replaced by. -/
theorem extend_ne {n m : Text} (hn : n ∈ names) (hm : m ∉ names) (hne : m ≠ []) :
    extend names r b n ≠ extend names r b m := by
  intro heq
  have hlen := congrArg List.length heq
  have hle := (sublist_flatten_of_mem (mem_map_of_mem (f := r) hn)).length_le
  rw [extend_of_mem hn, extend_of_notMem hm hne, length_append, length_cons] at hlen
  omega

/-- What is one to one on some names is so on all texts once it is extended. -/
theorem isRenaming_extend (hnil : [] ∉ names) (hinj : ∀ m ∈ names, ∀ n ∈ names, r m = r n → m = n)
    (hne : ∀ n ∈ names, r n ≠ []) : IsRenaming (extend names r b) := by
  have hempty : extend names r b [] = [] := by rw [extend, if_neg hnil, if_pos rfl]
  have hnonempty : ∀ {n}, n ≠ [] → extend names r b n ≠ [] := by
    intro n hn
    by_cases hmem : n ∈ names
    · rw [extend_of_mem hmem]
      exact hne n hmem
    · rw [extend_of_notMem hmem hn]
      simp
  refine ⟨fun m n hmn => ?_, hempty⟩
  by_cases hm : m = [] <;> by_cases hn : n = []
  · rw [hm, hn]
  · rw [hm, hempty] at hmn
    exact absurd hmn.symm (hnonempty hn)
  · rw [hn, hempty] at hmn
    exact absurd hmn (hnonempty hm)
  by_cases hmem : m ∈ names <;> by_cases hmem' : n ∈ names
  · rw [extend_of_mem hmem, extend_of_mem hmem'] at hmn
    exact hinj m hmem n hmem' hmn
  · exact absurd hmn (extend_ne hmem hmem' hn)
  · exact absurd hmn.symm (extend_ne hmem' hmem hm)
  · rw [extend_of_notMem hmem hm, extend_of_notMem hmem' hn] at hmn
    exact (List.cons.inj (append_cancel_left hmn)).2

end Text

end Foolscap
