import Foolscap.Proofs.Class.Nearest
import Foolscap.Proofs.Program.Accepted

/-!
# Dispatch tables of programs

The dispatch tables of a compiled program, by the names of methods: the slot that a class has for a
method holds the label of the declaration that is nearest to the class.  Every label of a function
or method is defined once, after the code that the program starts with.
-/

namespace Foolscap

open List

/-! ### Definitions of labels -/

namespace Line

/-- Only the definition of a label reads like one. -/
theorem text_eq_text_mark {x : Line} {l : Label} : x.text = (mark l).text ↔ x = mark l := by
  refine ⟨fun h => ?_, fun h => h ▸ rfl⟩
  -- The text of every other line ends in something other than a colon.
  have hlast : x.text.getLast? = some 58 := by
    rw [h]
    exact List.getLast?_concat
  cases x with
  | op o => exact absurd hlast o.isWord_mnemonic.no_colon
  | push n =>
    have hw := Text.isWord_ofInt n
    exact absurd ((Text.getLast?_pair (s := "push") hw.ne_nil).symm.trans hlast) hw.no_colon
  | pushLabel s =>
    cases s with
    | none => exact absurd hlast (by decide)
    | some k =>
      have hw := k.isWord_text
      exact absurd ((Text.getLast?_pair (s := "push") hw.ne_nil).symm.trans hlast) hw.no_colon
  | branch b k =>
    have hw := k.isWord_text
    rw [text, mnemonic_append, Text.getLast?_pair hw.ne_nil] at hlast
    exact absurd hlast hw.no_colon
  | mark k =>
    have hk : k.text ++ (":" : Text) = l.text ++ (":" : Text) := h
    rw [Label.text_injective (append_cancel_right hk)]

/-- The definitions of a label are counted in the text as in the lines. -/
theorem count_text_mark (ls : List Line) (l : Label) :
    (ls.map text).count (l.text ++ ":") = (marks ls).count l := by
  induction ls with
  | nil => rfl
  | cons x ls ih =>
    rw [map_cons, count_cons, ih]
    by_cases hx : x = mark l
    · subst hx
      rw [marks, count_cons_self]
      exact congrArg _ (if_pos (beq_self_eq_true _))
    · have htext : (x.text == l.text ++ (":" : Text)) = false :=
        beq_eq_false_iff_ne.mpr fun h => hx (text_eq_text_mark.mp h)
      rw [htext, if_neg Bool.false_ne_true]
      cases x with
      | mark k =>
        have hk : k ≠ l := fun h => hx (h ▸ rfl)
        rw [marks, count_cons_of_ne hk]
        rfl
      | _ => rfl

end Line

theorem Callable.EmittedIn.label_mem_marks {x : Callable} {lines : List Line}
    (h : x.EmittedIn lines) : x.label ∈ Line.marks lines := by
  obtain ⟨g, before, after, rfl⟩ := h
  simp [Code.routine, Line.marks]

/-! ### Accepted programs -/

/-- The classes of a program have dispatch tables. -/
theorem codeClasses_get?_dispatch {cs : List ClassDecl}
    (hplain : ∀ c ∈ cs, ∀ m ∈ c.methods, m.routine.Plain) {g : Emitter} {name : Text}
    (h : (∃ table, g.dispatch.get? name = some table) ∨ ∃ c ∈ cs, c.name = name) :
    ∃ table, (codeClasses g cs).2.dispatch.get? name = some table := by
  induction cs generalizing g with
  | nil =>
    refine h.resolve_right ?_
    rintro ⟨c, hc, -⟩
    cases hc
  | cons c cs ih =>
    rw [codeClasses]
    apply ih (forall_mem_cons.mp hplain).2
    obtain ⟨span, own, super, fields, methods, entry, superEntry⟩ := c
    have hown : ∀ m ∈ methods, m.routine.Plain := hplain _ mem_cons_self
    rw [ClassDecl.code]
    dsimp only
    rw [emitMethods_dispatch methods hown]
    by_cases hname : name = own
    · subst hname
      exact .inl ⟨_, Table.get?_put_self _ _ _⟩
    · rw [Table.get?_put_of_ne _ _ hname]
      refine h.imp_right ?_
      rintro ⟨c', hc', heq⟩
      refine ⟨c', ?_, heq⟩
      exact (mem_cons.mp hc').resolve_left fun h => hname (by rw [← heq, h])

namespace Program

/-- Functions outside of classes come after the methods. -/
theorem nearest_callables {p : Program} (hplain : AllPlain p.decls) {supers : Hierarchy}
    {cls name : Text} {x : Callable}
    (h : Callable.Nearest (classCallables 0 p.classes) supers name cls x) :
    Callable.Nearest p.callables supers name cls x := by
  refine h.append (fun _ => True) trivial ?_ fun _ _ _ hsuper => ⟨trivial, hsuper⟩
  intro cls _ y hy
  rw [owner_innerCallables p.decls hplain _ y hy]
  nofun

namespace Accepted

variable {p : Program} (h : p.Accepted)

include h

/-- The slots of the classes of an accepted program hold nearest declarations. -/
theorem inherits : ∃ global, p.emitClasses.2.Inherits p.walkClasses.2 global
    (p.classes.map ClassDecl.weight).sum (classCallables 0 p.resolved.classes) := by
  have hinherits := Emitter.Inherits.empty.resolveClasses h.plain.1 h.walkClasses_errors
  rw [Nat.zero_add, nil_append] at hinherits
  exact hinherits

/-- The classes of an accepted program inherit from the ones that they name. -/
theorem get?_supers {d : ClassDecl} (hd : d ∈ p.resolved.classes) :
    p.walkClasses.2.scopes.context.supers.get? d.name = d.super :=
  supers_resolveClasses Context.Described.empty rfl h.plain.1 h.walkClasses_errors d hd

/-- The tables that the generator ends with are those of the classes. -/
theorem dispatch_code : (p.resolved.code {}).emitter.dispatch = p.dispatch :=
  codeDecls_dispatch p.resolved.decls h.plain_decls p.emitClasses.2

/-- Every label of a declaration is defined once, after the end of the code that is run first. -/
theorem defined : ∃ before, p.lines = before ++ .op .halt :: (p.resolved.code {}).routines ∧
    ∀ x ∈ p.resolved.callables, x.EmittedIn (p.resolved.code {}).routines ∧
      (Line.marks before).count x.label = 0 ∧
      (Line.marks (p.resolved.code {}).routines).count x.label = 1 := by
  obtain ⟨before, hlines⟩ : ∃ before,
      p.lines = before ++ .op .halt :: (p.resolved.code {}).routines := by
    refine ⟨p.prologue ++ (p.emitClasses.1 ++ (p.emitDecls.1 ++ p.bodyCode)), ?_⟩
    rw [p.lines_eq]
    simp only [append_assoc]
    rfl
  refine ⟨before, hlines, fun x hx => ?_⟩
  have hemitted := emitted_of_mem_callables hx
  have hnodup : (Line.marks p.lines).Nodup :=
    Program.code_marks_nodup h.plain_methods h.plain_decls
  rw [hlines, Line.marks_append, nodup_append] at hnodup
  obtain ⟨-, hroutines, hapart⟩ := hnodup
  have hmem : x.label ∈ Line.marks (p.resolved.code {}).routines := hemitted.label_mem_marks
  refine ⟨hemitted, count_eq_zero.mpr fun hbefore => ?_, count_eq_one_of_mem hroutines hmem⟩
  exact hapart _ hbefore _ hmem rfl

end Accepted

end Program

/-- **Dispatch tables hold the nearest overrides.**  In a compiled program, the dispatch table of a
class has as many slots as the type of the class has methods, and none is empty.  Each slot is that
of one method name, and it holds the label of the declaration that is found by this name on the way
up from the class, along the superclasses that the classes name.  The labels of functions and
methods are all different, and each of them is defined once in the assembly, by its own routine and
after the instruction that ends the program. -/
theorem dispatch_nearest {source : Text} {c : Compilation}
    (hcompile : (compile source).value = .ok c) :
    (∀ d ∈ c.program.classes, ∃ info origin fields methods table,
      c.context.classes.get? d.name = some info ∧ info.entry.ty = .cls origin fields methods ∧
      c.context.supers.get? d.name = d.super ∧
      c.code.emitter.dispatch.get? d.name = some table ∧ table.length = methods.length ∧
      (∀ slot ∈ table, slot.isSome) ∧
      ∀ j < table.length, ∃ name e x,
        info.members.get? name = some e ∧ e.kind = .method ∧ e.offset = (j : Int) ∧
        (∀ name' e', info.members.get? name' = some e' → e'.kind = .method →
          e'.offset = (j : Int) → name' = name) ∧
        Callable.Nearest c.program.callables c.context.supers name d.name x ∧
        table[j]? = some (some x.label)) ∧
    (c.program.callables.map fun x => x.label.text).Nodup ∧
    ∃ before after, Assembler.split c.assembly = before ++ ("halt" : Text) :: after ∧
      ∀ x ∈ c.program.callables, x.EmittedIn c.code.routines ∧
        before.count (x.label.text ++ ":") = 0 ∧ after.count (x.label.text ++ ":") = 1 := by
  obtain ⟨p, -, haccepted, hprogram, hcontext, hcode⟩ := parsed_of_compile hcompile
  rw [hprogram, hcontext, hcode, haccepted.context_eq_walkClasses, haccepted.dispatch_code]
  refine ⟨?_, ?_, ?_⟩
  · intro d hd
    obtain ⟨global, hinherits⟩ := haccepted.inherits
    obtain ⟨table, htable⟩ : ∃ table, p.dispatch.get? d.name = some table :=
      codeClasses_get?_dispatch haccepted.plain_methods (.inr ⟨d, hd, rfl⟩)
    obtain ⟨info, hinfo⟩ : ∃ info,
        p.walkClasses.2.scopes.context.classes.get? d.name = some info := by
      apply Option.ne_none_iff_exists'.mp
      intro hnone
      exact absurd ((hinherits.tabled.unknown d.name hnone).symm.trans htable) nofun
    obtain ⟨l, table', hlaid, hsound, -, -, htable', hfilled⟩ :=
      hinherits.tabled.layout d.name info hinfo
    obtain rfl := Option.some.inj (htable'.symm.trans htable)
    obtain ⟨origin, hty⟩ := hlaid.ty
    have hdispatches := hinherits.nearest d.name info l table' hinfo hlaid htable
    refine ⟨info, origin, l.fields, l.methods, table', hinfo, hty,
      haccepted.get?_supers hd, htable, hfilled.length,
      hfilled.slots, fun j hj => ?_⟩
    rw [hlaid.members]
    rw [hfilled.length] at hj
    obtain ⟨name, e, he, hk, hoffset⟩ := (hsound.fills .method).filled j hj
    obtain ⟨i, -, hi, hslot, x, rfl, hx⟩ := hdispatches.slot name e he hk
    obtain rfl : i = j := Int.ofNat.inj (hi.symm.trans hoffset)
    refine ⟨name, e, x, he, hk, hoffset, fun name' e' he' hk' hoffset' => ?_,
      Program.nearest_callables haccepted.plain_decls hx, hslot⟩
    exact (hsound.fills .method).apart _ _ _ _ he' he hk' hk (hoffset'.trans hoffset.symm)
  · have hnodup := p.resolved.nodup_labels.map (f := Label.text) fun _ _ => Label.text_injective
    rwa [List.map_map] at hnodup
  · obtain ⟨before, hlines, hdefined⟩ := haccepted.defined
    refine ⟨before.map Line.text, (p.resolved.code {}).routines.map Line.text, ?_, ?_⟩
    · rw [Compilation.assembly, hcode, Line.split_textOf]
      show p.lines.map Line.text = _
      rw [hlines, List.map_append, List.map_cons]
      rfl
    · intro x hx
      rw [Line.count_text_mark, Line.count_text_mark]
      exact hdefined x hx

/-- Three classes in a chain.  The second one overrides the first of two inherited methods, in the
other one a function is declared, and the last class overrides neither. -/
def overridingSource : Text :=
  "let class A () { fun m:int () 1; fun h:int () let fun m:int () 7; in m(); } " ++
  "class B extends A () { fun m:int () 2; } class C extends B () { fun k:int () 3; } " ++
  "fun m:int () 4; in print(m());"

/-- The first slot of the last class holds the method of the class in the middle. -/
theorem dispatch_nearest_overriding : ∃ c table x,
    (compile overridingSource).value = .ok c ∧
      c.code.emitter.dispatch.get? "C" = some table ∧
      table.map Slot.text = ["function3", "function1", "function4"] ∧
      Callable.Nearest c.program.callables c.context.supers "m" "C" x ∧
      table[0]? = some (some x.label) ∧ x.owner = some ("B" : Text) ∧
      x.EmittedIn c.code.routines := by
  obtain ⟨c, hc, hfacts⟩ := exists_ok_of_any (x := (compile overridingSource).value)
    (q := fun c => (c.program.classes.any fun d => d.name = ("C" : Text)) &&
      ((c.code.emitter.dispatch.get? "C").any fun table =>
        table.map Slot.text = (["function3", "function1", "function4"] : List Text)) &&
      ((c.context.classes.get? "C").any fun info =>
        (info.members.get? "m").any fun e => e.kind = .method && e.offset = 0) &&
      c.program.callables.all fun x => x.label.text ≠ ("function3" : Text) ||
        x.owner = some ("B" : Text))
    (by decide +kernel)
  simp only [Bool.and_eq_true] at hfacts
  obtain ⟨⟨⟨hclass, htable⟩, hmember⟩, howners⟩ := hfacts
  obtain ⟨d, hd, hname⟩ := List.any_eq_true.mp hclass
  obtain ⟨hclasses, -, before, after, -, hdefined⟩ := dispatch_nearest hc
  obtain ⟨info, -, -, -, table, hinfo, -, -, hget, -, -, hslots⟩ := hclasses d hd
  rw [of_decide_eq_true hname] at hinfo hget hslots
  rw [hget, Option.any_some] at htable
  rw [hinfo, Option.any_some] at hmember
  have htexts := of_decide_eq_true htable
  have hlength : 0 < table.length := by
    rw [← List.length_map Slot.text, htexts]
    decide
  obtain ⟨name, e, x, -, -, -, honly, hnearest, hslot⟩ := hslots 0 hlength
  obtain ⟨e', he', hmember⟩ := (Option.any_eq_true _ _).mp hmember
  simp only [Bool.and_eq_true, decide_eq_true_eq] at hmember
  obtain rfl := honly "m" e' he' hmember.1 hmember.2
  have hlabel : x.label.text = ("function3" : Text) := by
    have hfirst := congrArg (·[0]?) htexts
    simpa [hslot, Slot.text] using hfirst
  have howner := List.all_eq_true.mp howners x hnearest.mem
  simp only [hlabel, ne_eq, not_true_eq_false, decide_false, Bool.false_or,
    decide_eq_true_eq] at howner
  exact ⟨c, table, x, hc, hget, htexts, hnearest, hslot, howner, (hdefined x hnearest.mem).1⟩

end Foolscap
