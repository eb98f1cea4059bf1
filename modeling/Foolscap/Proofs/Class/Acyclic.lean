import Foolscap.Proofs.Class.Described
import Foolscap.Proofs.Ty.Order

/-!
# Hierarchies of programs

The classes of a program form no cycle, also if the walk that resolves names found errors: a class
inherits from one that was recorded before it, and it is recorded once.  So among the types of a
program without class types, the subtype relation is an order.
-/

namespace Foolscap

namespace Context.Described

variable {rank : Text → Nat} {global : Table Entry} {R : Resolver} {c : ClassDecl}

/-- A new class with a known superclass, or with none, is ranked above it. -/
theorem ranked_declare {context : Context} (h : context.Described global)
    (hrank : context.supers.Ranked rank) {name : Text} {super : Option Text} {info : ClassInfo}
    (hnew : context.classes.get? name = none)
    (hsuper : ∀ s, super = some s → ∃ i, context.classes.get? s = some i) :
    ∃ rank', (context.declare name super info).supers.Ranked rank' := by
  have hne : ∀ s, (∃ i, context.classes.get? s = some i) → s ≠ name := by
    rintro s ⟨i, hi⟩ rfl
    rw [hnew] at hi
    cases hi
  -- Only the rank of the new class changes, and no class has it as a superclass.
  refine ⟨fun s => if s = name then (super.map rank).getD 0 + 1 else rank s, ?_⟩
  intro other s hs
  unfold Hierarchy.Extends at hs
  dsimp only
  by_cases hother : other = name
  · subst hother
    rw [get?_supers_declare_self _ _ _ (h.undeclared other hnew)] at hs
    rw [if_neg (hne s (hsuper s hs)), if_pos rfl, hs]
    exact Nat.lt_succ_self _
  · rw [get?_supers_declare_of_ne _ _ _ hother] at hs
    rw [if_neg (hne s (h.super_known hs)), if_neg hother]
    exact hrank other s hs

/-- One more class can be ranked: it inherits from a known class, and if its name is taken it leaves
no trace. -/
theorem ranked_resolve (h : R.scopes.context.Described global)
    (hrank : R.scopes.context.supers.Ranked rank) (ht : R.scopes.tables = [global])
    (hplain : c.Plain) : ∃ rank', (c.resolve R).2.scopes.context.supers.Ranked rank' := by
  rw [ClassDecl.resolve_scopes hplain ht, Resolver.scopesAfter]
  cases hget : global.get? c.name with
  | some e => exact ⟨rank, hrank⟩
  | none =>
    refine h.ranked_declare hrank (h.get?_eq_none hget) fun s hs => ?_
    obtain ⟨info, -, hinfo, -⟩ := h.superOf_known ht hs
    exact ⟨info, hinfo⟩

/-- All classes can be ranked. -/
theorem ranked_resolveClasses {cs : List ClassDecl} (h : R.scopes.context.Described global)
    (hrank : R.scopes.context.supers.Ranked rank) (ht : R.scopes.tables = [global])
    (hplain : ∀ c ∈ cs, c.Plain) :
    ∃ rank', (Foolscap.resolveClasses R cs).2.scopes.context.supers.Ranked rank' := by
  induction cs generalizing R global rank with
  | nil => exact ⟨rank, hrank⟩
  | cons c cs ih =>
    have hc := hplain c List.mem_cons_self
    obtain ⟨rank₁, hrank₁⟩ := h.ranked_resolve hrank ht hc
    obtain ⟨global₁, ht₁, h₁⟩ := h.resolve ht hc
    exact ih h₁ hrank₁ ht₁ (List.forall_mem_cons.mp hplain).2

end Context.Described

namespace Program

/-- The hierarchy of a program has no cycle. -/
theorem acyclic_supers {p : Program} (hplain : p.Plain) :
    (p.resolve {}).context.supers.Acyclic := by
  have hempty : ({} : Context).supers.Ranked fun _ => 0 := fun _ _ hstep => nomatch hstep
  obtain ⟨rank, hrank⟩ := Context.Described.empty.ranked_resolveClasses
    (R := { scopes := ⟨[[]], {}⟩ }) hempty rfl hplain.1
  have hcontext : (p.resolve {}).context =
      (resolveClasses { scopes := ⟨[[]], {}⟩ } p.classes).2.scopes.context :=
    (resolveDecls_kept p.decls hplain.2 _).context
  rw [hcontext]
  exact hrank.acyclic

/-- **Subtyping is a preorder, and an order among the types of a program.**  Over any hierarchy,
with cycles or without, the subtype relation is transitive, and a type is a subtype of itself just
if none of its leaves is missing; so it is if nothing is missing in it at all.  The hierarchy of a
program that was read from a text has no cycle, also if there are scope errors, and types without
class types that are subtypes of each other over it are the same type. -/
theorem subtype_order :
    (∀ h : Hierarchy,
      (∀ a b c, h.isSubtype a b → h.isSubtype b c → h.isSubtype a c) ∧
      (∀ a, h.isSubtype a a ↔ ∀ l ∈ a.leaves, l.isMissing = false) ∧
      ∀ a, a.isComplete → h.isSubtype a a) ∧
    ∀ source p, parse source = .ok p →
      (p.resolve {}).context.supers.Acyclic ∧
      ∀ a b, (∀ l ∈ a.leaves, l.isClass = false) → (∀ l ∈ b.leaves, l.isClass = false) →
        (p.resolve {}).context.supers.isSubtype a b →
        (p.resolve {}).context.supers.isSubtype b a → a = b := by
  refine ⟨fun h => ⟨?_, ?_, ?_⟩, fun source p hp => ?_⟩
  · intro a b c hab hbc
    exact Hierarchy.isSubtype_trans hab hbc
  · intro a
    exact Hierarchy.isSubtype_self_iff
  · intro a ha
    exact Hierarchy.isSubtype_refl ha
  · have hacyclic := acyclic_supers (plain_of_parse hp)
    refine ⟨hacyclic, ?_⟩
    intro a b ha _ hab hba
    exact Hierarchy.isSubtype_antisymm hacyclic ha hab hba

/-- Three classes, of which the last one has the name of the first and would close a cycle. -/
def cyclingSource : Text :=
  "let class A () { } class B extends A () { } class A extends B () { } in 1;"

/-- Over a cycle of two classes function types are subtypes of each other although they differ.  A
program cannot write such a cycle down. -/
theorem subtype_order_cycling :
    (∃ h : Hierarchy, ∃ a b : Ty, h.get? "A" = some "B" ∧ h.get? "B" = some "A" ∧
      a.display = "(A) -> B" ∧ b.display = "(B) -> A" ∧
      h.isSubtype a b ∧ h.isSubtype b a ∧ h.isSubtype a a) ∧
    ∃ p, parse cyclingSource = .ok p ∧ (p.resolve {}).errors.length = 1 ∧
      (p.resolve {}).context.supers.get? "B" = some "A" ∧
      (p.resolve {}).context.supers.Acyclic ∧
      (p.resolve {}).context.supers.isSubtype (.ref "B") (.ref "A") ∧
      ¬ (p.resolve {}).context.supers.isSubtype (.ref "A") (.ref "B") := by
  obtain ⟨hpreorder, horder⟩ := subtype_order
  constructor
  · refine ⟨[("A", "B"), ("B", "A")], .arrow [.ref "A"] (.ref "B"), .arrow [.ref "B"] (.ref "A"),
      by decide, by decide, by decide, by decide, by decide, by decide, ?_⟩
    exact (hpreorder _).1 _ (.arrow [.ref "B"] (.ref "A")) _ (by decide) (by decide)
  · obtain ⟨p, hp, hrun⟩ := exists_ok_of_any (x := parse cyclingSource)
      (q := fun p =>
        let r := p.resolve {}
        r.errors.length = 1 && r.context.supers.get? "B" = some ("A" : Text) &&
          r.context.supers.isSubtype (.ref "B") (.ref "A")) (by decide +kernel)
    simp only [Bool.and_eq_true, decide_eq_true_eq] at hrun
    obtain ⟨⟨herrors, hsuper⟩, hsub⟩ := hrun
    obtain ⟨hacyclic, hantisymm⟩ := horder _ p hp
    refine ⟨p, hp, herrors, hsuper, hacyclic, hsub, ?_⟩
    intro hback
    have heq := hantisymm _ _ (by decide) (by decide) hsub hback
    exact absurd (Ty.ref.inj heq) (by decide)

end Program

end Foolscap
