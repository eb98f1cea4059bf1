import Foolscap.Proofs.Class.Overrides
import Foolscap.Proofs.Program.Total

/-!
# Ancestors

In a program without errors a class can stand in for every class above it, however far: it has the
fields and the methods of that class at their positions, with types below.
-/

namespace Foolscap

theorem ClassInfo.ty_eq_cls {context : Context} {global : Table Entry}
    (h : context.Described global) {name : Text} {info : ClassInfo}
    (hinfo : context.classes.get? name = some info) :
    ∃ origin, info.entry.ty = .cls origin (info.types .field) (info.types .method) := by
  obtain ⟨l, hlaid, -⟩ := h.laid name info hinfo
  obtain ⟨origin, hty⟩ := hlaid.ty
  rw [hlaid.types_layout, hlaid.types_layout]
  exact ⟨origin, hty⟩

/-- The classes of an accepted program conform to their direct superclasses. -/
theorem Program.Accepted.conforming {p : Program} (h : p.Accepted) :
    ∃ global, p.walkClasses.2.Conforming global p.context.supers := by
  have hquiet := h.quiet
  rw [Program.halts, Typing.quiet_append, Typing.quiet_append] at hquiet
  exact (Resolver.Conforming.empty _).resolveClasses h.plain.1 h.walkClasses_errors hquiet.1.1

/-- What is analysed without diagnostics is an accepted program. -/
theorem accepted_of_analyse {source : Text} (h : (analyse source).value.errors = []) :
    ∃ p : Program, p.Accepted ∧ (analyse source).value.context = p.context := by
  rcases Program.parse_cases source with ⟨p, -, -, hp, -, -, -, hwhole⟩ | ⟨d, hd, -⟩
  · have hanalyse : analyse source = p.analyse := by rw [analyse, hp]
    rw [hanalyse] at h ⊢
    obtain ⟨-, -, hreported | ⟨-, haccepted, -⟩⟩ :=
      Program.analyse_cases (Program.plain_of_parse hp) hwhole
    · exact absurd h hreported.ne_nil
    · exact ⟨p, haccepted, p.resolved_analyse.2⟩
  · rw [analyse, hd] at h
    cases h

/-- **Overrides conform to every ancestor.**  In a program that is analysed without diagnostics, a
class has at least the fields and the methods of each of its superclasses, direct or not, and their
types are subtypes of the types there, position by position.  So a method takes as many parameters
as the one that it stands in for. -/
theorem overrides_conform {source : Text} (herrors : (analyse source).value.errors = [])
    {name above : Text} {info : ClassInfo}
    (hinfo : (analyse source).value.context.classes.get? name = some info)
    (habove : above ∈ (analyse source).value.context.supers.superclasses name) :
    ∃ aboveInfo origin fields methods aboveOrigin aboveFields aboveMethods,
      (analyse source).value.context.classes.get? above = some aboveInfo ∧
      info.entry.ty = .cls origin fields methods ∧
      aboveInfo.entry.ty = .cls aboveOrigin aboveFields aboveMethods ∧
      aboveFields.length ≤ fields.length ∧ aboveMethods.length ≤ methods.length ∧
      (∀ (i : Nat) got want, fields[i]? = some got → aboveFields[i]? = some want →
        (analyse source).value.context.supers.isSubtype got want) ∧
      ∀ (j : Nat) got want, methods[j]? = some got → aboveMethods[j]? = some want →
        (analyse source).value.context.supers.isSubtype got want ∧
        ∃ params ret aboveParams aboveRet, got = .arrow params ret ∧
          want = .arrow aboveParams aboveRet ∧ params.length = aboveParams.length := by
  obtain ⟨p, haccepted, hcontext⟩ := accepted_of_analyse herrors
  obtain ⟨global, hconforming⟩ := haccepted.conforming
  rw [hcontext, haccepted.context_eq_walkClasses] at hinfo habove ⊢
  rw [haccepted.context_eq_walkClasses] at hconforming
  have hsubclass : p.walkClasses.2.scopes.context.supers.isSubclass name above := by
    simp [Hierarchy.isSubclass, habove]
  obtain ⟨aboveInfo, haboveInfo, hconforms⟩ :=
    hconforming.conforms hinfo (Hierarchy.isSubclass_iff.mp hsubclass)
  obtain ⟨origin, hty⟩ := ClassInfo.ty_eq_cls hconforming.described hinfo
  obtain ⟨aboveOrigin, haboveTy⟩ := ClassInfo.ty_eq_cls hconforming.described haboveInfo
  have hbelow : ∀ (kind : EntryKind) (i : Nat) got want, (info.types kind)[i]? = some got →
      (aboveInfo.types kind)[i]? = some want →
      p.walkClasses.2.scopes.context.supers.isSubtype got want := by
    intro kind i got want hgot hwant
    obtain ⟨got', hgot', hsub⟩ := hconforms kind i want hwant
    obtain rfl := Option.some.inj (hgot.symm.trans hgot')
    exact hsub
  refine ⟨aboveInfo, origin, _, _, aboveOrigin, _, _, haboveInfo, hty, haboveTy,
    (hconforms .field).length_le, (hconforms .method).length_le, hbelow .field, ?_⟩
  intro j got want hgot hwant
  have hsub := hbelow .method j got want hgot hwant
  obtain ⟨params, ret, rfl⟩ :=
    (hconforming.bears_types hinfo .method got (List.mem_of_getElem? hgot)).2 rfl
  obtain ⟨aboveParams, aboveRet, rfl⟩ :=
    (hconforming.bears_types haboveInfo .method want (List.mem_of_getElem? hwant)).2 rfl
  exact ⟨hsub, params, ret, aboveParams, aboveRet, rfl, rfl, Hierarchy.length_params_eq hsub⟩

/-- Three classes in a chain.  The one in the middle gives a field and a method types below the
inherited ones and takes more than the inherited method does; the last one leaves the first method
alone and narrows the other field. -/
def refiningSource : Text :=
  "let class A (x:int, y:A) { fun m:A (b:bool) y; fun h:int () 1; } " ++
  "class B extends A (y:B) { fun m:B (i:int) y; fun k:int () x; } " ++
  "class C extends B (x:bool) { fun h:bool () x; } in 1;"

/-- The last of three classes conforms to the first one. -/
theorem overrides_conform_refining :
    ∃ info aboveInfo origin fields methods aboveOrigin aboveFields aboveMethods,
      (analyse refiningSource).value.context.classes.get? "C" = some info ∧
      (analyse refiningSource).value.context.classes.get? "A" = some aboveInfo ∧
      info.entry.ty = .cls origin fields methods ∧
      aboveInfo.entry.ty = .cls aboveOrigin aboveFields aboveMethods ∧
      aboveFields.length ≤ fields.length ∧ aboveMethods.length ≤ methods.length ∧
      methods.map Ty.display = ["(int) -> B", "() -> bool", "() -> int"] ∧
      aboveMethods.map Ty.display = ["(bool) -> A", "() -> int"] ∧
      ∀ (j : Nat) got want, methods[j]? = some got → aboveMethods[j]? = some want →
        (analyse refiningSource).value.context.supers.isSubtype got want := by
  have hclean : (analyse refiningSource).value.errors.length = 0 := by decide +kernel
  have habove : ("A" : Text) ∈
      (analyse refiningSource).value.context.supers.superclasses "C" := by decide +kernel
  have hlast : ((analyse refiningSource).value.context.classes.get? "C").map
      (fun info => (info.types .method).map Ty.display) =
      some (["(int) -> B", "() -> bool", "() -> int"] : List Text) := by decide +kernel
  have hfirst : ((analyse refiningSource).value.context.classes.get? "A").map
      (fun info => (info.types .method).map Ty.display) =
      some (["(bool) -> A", "() -> int"] : List Text) := by decide +kernel
  obtain ⟨info, hinfo, hmethods⟩ := Option.map_eq_some_iff.mp hlast
  obtain ⟨aboveInfo, origin, fields, methods, aboveOrigin, aboveFields, aboveMethods, haboveInfo,
    hty, haboveTy, hfields, hlength, -, hsub⟩ :=
    overrides_conform (List.eq_nil_of_length_eq_zero hclean) hinfo habove
  obtain ⟨info', hinfo', haboveMethods⟩ := Option.map_eq_some_iff.mp hfirst
  obtain rfl := Option.some.inj (haboveInfo.symm.trans hinfo')
  unfold ClassInfo.types at hmethods haboveMethods
  rw [hty] at hmethods
  rw [haboveTy] at haboveMethods
  exact ⟨info, aboveInfo, origin, fields, methods, aboveOrigin, aboveFields, aboveMethods, hinfo,
    haboveInfo, hty, haboveTy, hfields, hlength, hmethods, haboveMethods,
    fun j got want hgot hwant => (hsub j got want hgot hwant).1⟩

end Foolscap
