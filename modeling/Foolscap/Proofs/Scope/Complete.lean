import Foolscap.Assembly.Generate
import Foolscap.Proofs.Scope.Located
import Foolscap.Proofs.Tree.Plain

/-!
# Complete scopes

Scopes in which all names that can be seen have complete types.  Where no expression is missing
either, looking up the names of an expression always makes sense, and an expression whose names all
denote something has code.
-/

namespace Foolscap

/-- The members of all classes have complete types. -/
def Context.Complete (c : Context) : Prop :=
  ∀ name info, c.classes.get? name = some info →
    ∀ member e, info.members.get? member = some e → e.ty.isComplete

/-- Scopes in which all names that can be seen have complete types, the members of classes
included. -/
structure Scopes.Complete (s : Scopes) : Prop where
  entry : ∀ name i e, Scopes.locate s.tables name = some (i, e) → e.ty.isComplete
  members : s.context.Complete

/-- The scopes at a place of a walk are complete if the context at its end is, so that no check is
skipped there because of a type that is unknown. -/
theorem Site.scopes_complete {final : Context} {s : Scopes} (site : Site final s)
    (hc : final.Complete) : s.Complete :=
  ⟨site.complete, fun name info hinfo => hc name info (site.context name info hinfo)⟩

namespace Scopes.Complete

variable {s : Scopes}

variable {name : Text} {e : Entry} (h : s.Complete)

include h

theorem entry? (he : s.entry? name = some e) : e.ty.isComplete := by
  obtain ⟨i, hi⟩ := Scopes.find?_eq_some_iff.mp he
  exact h.entry name i e hi

theorem use? {u : Use} (hu : s.use? name = some u) : u.entry.ty.isComplete := by
  obtain ⟨e, he, rfl⟩ := Option.map_eq_some_iff.mp hu
  exact h.entry? he

theorem class? (he : s.class? name = some e) :
    e.ty.isComplete := h.entry? (of_class? he).1

theorem target? {receiver method : Text} (he : (s.receive receiver method).target? = some e) :
    e.ty.isComplete := by
  obtain ⟨_, cls, info, -, -, -, hinfo, hmem, -⟩ := receive_target he
  exact h.members cls info hinfo method e hmem

theorem receive_ne_shapeless (receiver method : Text) (u : Use) :
    s.receive receiver method ≠ .shapeless u := by
  intro hshapeless
  obtain ⟨hu, hmissing⟩ := receive_shapeless hshapeless
  have hty := h.use? hu
  rw [hmissing] at hty
  cases hty

/-- The class of every receiver is known. -/
theorem isShapeless_eq_false (e : Expr) : s.isShapeless e = false := by
  cases e
  case send sp receiver method as u t =>
    rw [isShapeless]
    split
    · next v hv => exact absurd hv (h.receive_ne_shapeless receiver method v)
    · rfl
  all_goals rfl

/-- Entering a scope with complete entries. -/
theorem enter {t : Table Entry} (ht : ∀ name e, t.get? name = some e → e.ty.isComplete) :
    Scopes.Complete { s with tables := t :: s.tables } := by
  refine ⟨fun name i e hl => ?_, h.members⟩
  obtain ⟨-, hget⟩ | ⟨j, -, hj⟩ := locate_cons hl
  · exact ht name e hget
  · exact h.entry name j e hj

/-- Installing a complete entry. -/
theorem put {t : Table Entry} {ts : List (Table Entry)} (ht : s.tables = t :: ts)
    (he : e.ty.isComplete) (name : Text) :
    Scopes.Complete { s with tables := t.put name e :: ts } := by
  refine ⟨fun other i e' hl => ?_, h.members⟩
  obtain ⟨-, -, rfl⟩ | ⟨-, hl⟩ := locate_put hl
  · exact he
  · exact h.entry other i e' (ht ▸ hl)

end Scopes.Complete

/-! ### Gaps -/

/-- The names in an expression all denote something. -/
def Expr.Resolves (s : Scopes) (e : Expr) : Prop := ∀ part ∈ e.parts, s.error? part = none

theorem Expr.resolves_of_scopeErrors {s : Scopes} {e : Expr} (h : e.scopeErrors s = []) :
    e.Resolves s := by
  rw [Expr.scopeErrors, List.filterMap_eq_nil_iff] at h
  intro part hpart
  simpa using h part hpart

section

variable {s : Scopes}

theorem Scopes.Complete.target?_isSome (h : s.Complete) {sp : Span} {receiver method : Text}
    {as : List Expr} {u : Option Use} {t : Option Entry}
    (he : s.error? (.send sp receiver method as u t) = none) :
    (s.receive receiver method).use?.isSome ∧ (s.receive receiver method).target?.isSome := by
  rw [Scopes.error?] at he
  cases hr : s.receive receiver method with
  | shapeless v => exact absurd hr (h.receive_ne_shapeless receiver method v)
  | found v e => exact ⟨rfl, rfl⟩
  | _ => rw [hr] at he; cases he

mutual

/-- An expression without scope errors has no gap. -/
theorem Expr.gap?_bind (h : s.Complete) :
    ∀ e : Expr, e.Whole → e.Resolves s → (e.bind s).gap? = none
  | .missing, hw, _ => hw.elim
  | .binary _ op l r, hw, he => by
    have hl := Expr.gap?_bind h l hw.1 fun p hp => he p (by simp [Expr.parts, hp])
    have hr := Expr.gap?_bind h r hw.2 fun p hp => he p (by simp [Expr.parts, hp])
    cases op <;> rw [Expr.bind] <;> simp [Expr.gap?, hl, hr]
  | .not _ e, hw, he | .print _ e, hw, he => by
    rw [Expr.bind, Expr.gap?]
    exact Expr.gap?_bind h e hw fun p hp => he p (by simp [Expr.parts, hp])
  | .cond _ c t e, hw, he => by
    rw [Expr.bind, Expr.gap?, Expr.gap?_bind h c hw.1 fun p hp => he p (by simp [Expr.parts, hp]),
      Expr.gap?_bind h e hw.2.2 fun p hp => he p (by simp [Expr.parts, hp]),
      Expr.gap?_bind h t hw.2.1 fun p hp => he p (by simp [Expr.parts, hp])]
    rfl
  | .int _ _, _, _ | .bool _ _, _, _ | .null _, _, _ => rfl
  | .id sp name u, _, he => by
    have hself := he (.id sp name u) (by simp [Expr.parts])
    rw [Scopes.error?] at hself
    split at hself
    · next hsome =>
      rw [Expr.bind, Expr.gap?, Scopes.use?, Option.isSome_map, if_pos hsome]
    · cases hself
  | .call sp name as u, hw, he => by
    have hself := he (.call sp name as u) (by simp [Expr.parts])
    rw [Scopes.error?] at hself
    split at hself
    · next hsome =>
      rw [Expr.bind, Expr.gap?, Scopes.use?, Option.isSome_map, if_pos hsome,
        (gapArgs?_bindAll h as hw fun p hp => he p (by simp [Expr.parts, hp])).2]
      rfl
    · cases hself
  | .new sp name as en, hw, he => by
    have hself := he (.new sp name as en) (by simp [Expr.parts])
    have hsome : (s.class? name).isSome := by
      rw [Scopes.error?] at hself
      split at hself
      · cases hself
      · split at hself
        · cases hself
        · next hclass => simpa [Option.isSome_iff_ne_none] using hclass
    rw [Expr.bind, Expr.gap?, if_pos hsome,
      (gapArgs?_bindAll h as hw fun p hp => he p (by simp [Expr.parts, hp])).1]
    rfl
  | .send sp receiver method as u t, hw, he => by
    obtain ⟨huse, htarget⟩ := h.target?_isSome
      (he (.send sp receiver method as u t) (by simp [Expr.parts]))
    rw [Expr.bind, Expr.gap?, huse, htarget,
      (gapArgs?_bindAll h as hw fun p hp => he p (by simp [Expr.parts, hp])).2]
    rfl

/-- Arguments without scope errors have no gap, in whichever order they are taken. -/
theorem gapArgs?_bindAll (h : s.Complete) :
    ∀ es : List Expr, AllWhole es → (∀ part ∈ allParts es, s.error? part = none) →
      gapArgs? (bindAll s es) = none ∧ gapLastFirst? (bindAll s es) = none
  | [], _, _ => ⟨rfl, rfl⟩
  | e :: es, hw, he => by
    have hhead := Expr.gap?_bind h e hw.1 fun p hp => he p (by simp [allParts, hp])
    have htail := gapArgs?_bindAll h es hw.2 fun p hp => he p (by simp [allParts, hp])
    rw [bindAll, gapArgs?, gapLastFirst?, hhead, htail.1, htail.2]
    exact ⟨rfl, rfl⟩

end

end

end Foolscap
