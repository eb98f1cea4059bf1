import Foolscap.Proofs.Typing.Ill

/-!
# Checks that find nothing

A declaration with an incomplete type is skipped in silence.  Where all written types are complete,
nothing is skipped, so a check that finds no error has found the types of all expressions.
-/

namespace Foolscap

namespace Typing

/-- A check that found nothing but, possibly, incomplete types. -/
def Quiet (hs : List Halt) : Prop := ∀ x ∈ hs, x = .incomplete

theorem quiet_append {hs hs' : List Halt} : Quiet (hs ++ hs') ↔ Quiet hs ∧ Quiet hs' := by
  simp only [Quiet, List.mem_append]
  exact ⟨fun h => ⟨fun x hx => h x (.inl hx), fun x hx => h x (.inr hx)⟩,
    fun h x hx => hx.elim (h.1 x) (h.2 x)⟩

/-- A check without errors is quiet. -/
theorem quiet_of_errors {hs : List Halt} (he : errors hs = []) (hb : anyBroken hs = false) :
    Quiet hs := by
  induction hs with
  | nil => exact fun x hx => absurd hx (by simp)
  | cons x hs ih =>
    cases x with
    | ill d => simp [errors] at he
    | broken => simp [anyBroken] at hb
    | incomplete =>
      intro y hy
      rcases List.mem_cons.mp hy with rfl | hy
      · rfl
      · exact ih he hb y hy

/-- An expression whose check is quiet has a type below the one wanted, unless it was skipped. -/
theorem conforms_quiet {h : Hierarchy} {e : Expr} {want : Ty} {wrong : Ty → Halt}
    (hq : Quiet (conforms h e want wrong)) (hwrong : ∀ t, wrong t ≠ .incomplete)
    (hne : e.typeOf h ≠ .error .incomplete) :
    ∃ got, e.typeOf h = .ok got ∧ h.isSubtype got want := by
  rw [conforms] at hq
  cases ht : e.typeOf h with
  | error x =>
    rw [ht] at hq
    exact absurd (hq x (by simp)) fun hx => hne (by rw [ht, hx])
  | ok got =>
    simp only [ht] at hq
    split at hq
    · next hs => exact ⟨got, rfl, hs⟩
    · exact absurd (hq _ (by simp)) (hwrong got)

end Typing

/-! ### No expression is skipped -/

section

variable {final : Context} {s : Scopes} {h : Hierarchy}

theorem Site.class?_eq_some (site : Site final s) {name : Text} {e : Entry}
    (he : s.class? name = some e) :
    e.ty.isComplete ∧ ∃ info, final.classes.get? name = some info ∧ info.entry = e := by
  obtain ⟨hentry, hkind⟩ := Scopes.of_class? he
  obtain ⟨i, hi⟩ := Scopes.find?_eq_some_iff.mp hentry
  exact ⟨site.complete name i e hi, site.classes name i e hi hkind⟩

/-- No expression is skipped where all entries are complete. -/
theorem Expr.typeOf_bind_ne_incomplete (site : Site final s) (hc : final.Complete) (e : Expr) :
    (e.bind s).typeOf h ≠ .error .incomplete :=
  (Expr.typeOf_bind_ends (site.scopes_complete hc) e).ne_incomplete

end

end Foolscap
