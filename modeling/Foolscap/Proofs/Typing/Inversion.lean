import Mathlib.Data.List.Forall2
import Foolscap.Typing

/-!
# What well-typed expressions are made of

The types of the parts of an expression that has a type, one statement for each form.
-/

namespace Foolscap

variable {h : Hierarchy} {sp : Span} {t : Ty}

theorem bind_eq_ok_iff {α β : Type} {x : Except Halt α} {f : α → Except Halt β} {b : β} :
    (x >>= f) = .ok b ↔ ∃ a, x = .ok a ∧ f a = .ok b := by
  cases x with
  | error e => exact ⟨nofun, fun ⟨_, h, _⟩ => nomatch h⟩
  | ok a => exact ⟨fun h => ⟨a, rfl, h⟩, fun ⟨_, h, h'⟩ => by cases h; exact h'⟩

/-- Expressions have types below the ones wanted. -/
def Typing.Conform (h : Hierarchy) : List Expr → List Ty → Prop :=
  List.Forall₂ fun e t => ∃ got, e.typeOf h = .ok got ∧ h.isSubtype got t

/-- Arguments that pass their check conform. -/
theorem checkArgs_eq_ok {wrong : Nat → Ty → Ty → TypeError} {i : Nat} {es : List Expr}
    {ts : List Ty} (hlen : es.length = ts.length) (hok : checkArgs h wrong i es ts = .ok ()) :
    Typing.Conform h es ts := by
  induction es generalizing i ts with
  | nil =>
    obtain rfl : ts = [] := List.length_eq_zero_iff.mp hlen.symm
    exact .nil
  | cons e es ih =>
    cases ts with
    | nil => simp at hlen
    | cons t ts =>
      rw [checkArgs] at hok
      obtain ⟨got, hgot, hok⟩ := bind_eq_ok_iff.mp hok
      split at hok
      · next hsub => exact .cons ⟨got, hgot, hsub⟩ (ih (by simpa using hlen) hok)
      · cases hok

namespace Expr

theorem typeOf_binary {op : BinaryOp} {l r : Expr} (ht : (binary sp op l r).typeOf h = .ok t) :
    ∃ lt rt, l.typeOf h = .ok lt ∧ r.typeOf h = .ok rt ∧
      Typing.operation h sp.start op lt rt = .ok t := by
  obtain ⟨lt, hl, ht⟩ := bind_eq_ok_iff.mp ht
  obtain ⟨rt, hr, ht⟩ := bind_eq_ok_iff.mp ht
  exact ⟨lt, rt, hl, hr, ht⟩

theorem typeOf_not {e : Expr} (ht : (not sp e).typeOf h = .ok t) :
    t = .bool ∧ ∃ et, e.typeOf h = .ok et := by
  obtain ⟨et, he, ht⟩ := bind_eq_ok_iff.mp ht
  split at ht
  · cases ht
    exact ⟨rfl, et, he⟩
  · cases ht

/-- The types of the branches have a join, which is the type of the whole. -/
theorem typeOf_cond {c y n : Expr} (ht : (cond sp c y n).typeOf h = .ok t) :
    ∃ ct yt nt, c.typeOf h = .ok ct ∧ y.typeOf h = .ok yt ∧ n.typeOf h = .ok nt ∧
      h.isSubtype ct .bool ∧ h.join? yt nt = some t := by
  obtain ⟨ct, hc, ht⟩ := bind_eq_ok_iff.mp ht
  split at ht
  · next hsub =>
    obtain ⟨yt, hy, ht⟩ := bind_eq_ok_iff.mp ht
    obtain ⟨nt, hn, ht⟩ := bind_eq_ok_iff.mp ht
    split at ht
    · next hjoin =>
      cases ht
      exact ⟨ct, yt, nt, hc, hy, hn, hsub, hjoin⟩
    · cases ht
  · cases ht

variable {name : Text} {use : Option Use} {as : List Expr}

/-- A name with a type stands for a variable, a parameter or a field, of that type. -/
theorem typeOf_id (ht : (id sp name use).typeOf h = .ok t) :
    ∃ u, use = some u ∧ u.entry.kind ≠ .fn ∧ u.entry.kind ≠ .method ∧ u.entry.kind ≠ .cls ∧
      u.entry.ty = t := by
  cases use with
  | none => cases ht
  | some u =>
    change Typing.value sp.start name u.entry = .ok t at ht
    rw [Typing.value] at ht
    refine ⟨u, rfl, ?_⟩
    split at ht
    · cases ht
    · cases ht
    · cases ht
    · next h₁ h₂ h₃ =>
      split at ht
      · cases ht
        exact ⟨h₁, h₂, h₃, rfl⟩
      · cases ht

theorem callee_eq_ok {pos : Position} {err : TypeError} {u : Ty} {ps : List Ty}
    (hc : Typing.callee pos err u = .ok (ps, t)) : u = .arrow ps t := by
  unfold Typing.callee at hc
  split at hc
  · split at hc
    · cases hc; rfl
    · cases hc
  · cases hc
  · cases hc

theorem constructed_eq_ok {pos : Position} {u : Ty} {fs : List Ty}
    (hc : Typing.constructed pos name u = .ok fs) : ∃ origin ms, u = .cls origin fs ms := by
  unfold Typing.constructed at hc
  split at hc
  · next origin fs' ms =>
    split at hc
    · cases hc
      exact ⟨origin, ms, rfl⟩
    · cases hc
  · cases hc

/-- The check that calls of functions and of methods share. -/
theorem arguments_eq_ok {ps : List Ty} {wrong : Nat → Ty → Ty → TypeError} {e : Halt} {a : Ty}
    (hok : (if as.length = ps.length then do
        checkArgs h wrong 1 as ps
        .ok a
      else .error e) = Except.ok t) : a = t ∧ Typing.Conform h as ps := by
  split at hok
  · next hlen =>
    obtain ⟨_, hargs, hok⟩ := bind_eq_ok_iff.mp hok
    cases hok
    exact ⟨rfl, checkArgs_eq_ok hlen hargs⟩
  · cases hok

theorem typeOf_call (ht : (call sp name as use).typeOf h = .ok t) :
    ∃ u ps, use = some u ∧ u.entry.ty = .arrow ps t ∧ Typing.Conform h as ps := by
  cases use with
  | none => cases ht
  | some u =>
    obtain ⟨⟨ps, ret⟩, hcallee, ht⟩ := bind_eq_ok_iff.mp ht
    obtain ⟨rfl, hargs⟩ := arguments_eq_ok ht
    exact ⟨u, ps, rfl, callee_eq_ok hcallee, hargs⟩

theorem typeOf_new {entry : Option Entry} (ht : (new sp name as entry).typeOf h = .ok t) :
    ∃ e origin fs ms, entry = some e ∧ e.ty = .cls origin fs ms ∧ t = .ref name ∧
      Typing.Conform h as fs := by
  cases entry with
  | none => cases ht
  | some e =>
    obtain ⟨fs, hfs, ht⟩ := bind_eq_ok_iff.mp ht
    obtain ⟨rfl, hargs⟩ := arguments_eq_ok ht
    obtain ⟨origin, ms, hty⟩ := constructed_eq_ok hfs
    exact ⟨e, origin, fs, ms, rfl, hty, rfl, hargs⟩

theorem typeOf_send {receiver method : Text} {target : Option Entry}
    (ht : (send sp receiver method as use target).typeOf h = .ok t) :
    ∃ e ps, target = some e ∧ e.ty = .arrow ps t ∧ Typing.Conform h as ps := by
  cases target with
  | none => cases ht
  | some e =>
    obtain ⟨⟨ps, ret⟩, hcallee, ht⟩ := bind_eq_ok_iff.mp ht
    obtain ⟨rfl, hargs⟩ := arguments_eq_ok ht
    exact ⟨e, ps, rfl, callee_eq_ok hcallee, hargs⟩

end Expr

namespace Typing

variable {pos : Position} {op : BinaryOp} {l r : Ty}

theorem arithmetic_eq_ok (ht : arithmetic h pos op l r = .ok t) : t = .int := by
  rw [arithmetic] at ht
  split at ht
  · cases ht; rfl
  · cases ht

theorem comparison_eq_ok (ht : comparison h pos op l r = .ok t) : t = .bool := by
  rw [comparison] at ht
  split at ht
  · cases ht; rfl
  · cases ht

theorem logical_eq_ok (ht : logical h pos op l r = .ok t) :
    t = .bool ∧ h.isSubtype l .bool ∧ h.isSubtype r .bool := by
  rw [logical] at ht
  split at ht
  · next hsub =>
    cases ht
    exact ⟨rfl, by simpa using hsub⟩
  · cases ht

end Typing

/-- Of two related types, the more general one is one of them and above the other. -/
theorem Hierarchy.join?_eq_some {a b c : Ty} (hj : h.join? a b = some c) :
    (c = b ∧ h.isSubtype a b) ∨ (c = a ∧ h.isSubtype b a) := by
  rw [join?] at hj
  split at hj
  · next hab =>
    cases hj
    exact .inl ⟨rfl, hab⟩
  · split at hj
    · next hba =>
      cases hj
      exact .inr ⟨rfl, hba⟩
    · cases hj

/-! ### Types are there -/

theorem Ty.not_isMissing_of_isComplete (hc : t.isComplete) : t.isMissing = false := by
  cases t with
  | missing shape => cases hc
  | _ => rfl

namespace Typing

/-- The type of an operation is one of the two base types, so it is not missing. -/
theorem not_isMissing_operation {pos : Position} {op : BinaryOp} {l r : Ty}
    (ht : operation h pos op l r = .ok t) : t.isMissing = false := by
  cases op with
  | plus | minus | times | div =>
    cases arithmetic_eq_ok ht
    rfl
  | equal | lessEqual | greaterEqual =>
    cases comparison_eq_ok ht
    rfl
  | and | or =>
    cases (logical_eq_ok ht).1
    rfl

/-- An entry whose type is incomplete has no value, so the type of a value is there. -/
theorem not_isMissing_value {pos : Position} {name : Text} {e : Entry}
    (ht : value pos name e = .ok t) : t.isMissing = false := by
  unfold value at ht
  split at ht
  · cases ht
  · cases ht
  · cases ht
  · split at ht
    · next hc =>
      cases ht
      exact Ty.not_isMissing_of_isComplete hc
    · cases ht

/-- A function whose type is incomplete is not called, so the type of a result is there. -/
theorem not_isMissing_callee {pos : Position} {err : TypeError} {u : Ty} {ps : List Ty}
    (hc : callee pos err u = .ok (ps, t)) : t.isMissing = false := by
  unfold callee at hc
  split at hc
  · split at hc
    · next hcomplete =>
      cases hc
      rw [Ty.isComplete, Bool.and_eq_true] at hcomplete
      exact Ty.not_isMissing_of_isComplete hcomplete.2
    · cases hc
  · cases hc
  · cases hc

end Typing

/-- The type of an expression is a type: the only entries whose types are handed on are those that
were checked for completeness, whether or not the names of the expression are resolved. -/
theorem Expr.not_isMissing_typeOf : ∀ {e : Expr} {t : Ty}, e.typeOf h = .ok t → t.isMissing = false
  | .missing, _, ht => nomatch ht
  | .int .., _, rfl | .bool .., _, rfl | .null _, _, rfl => rfl
  | .binary .., _, ht => by
    obtain ⟨lt, rt, -, -, ht⟩ := typeOf_binary ht
    exact Typing.not_isMissing_operation ht
  | .not .., _, ht => by
    cases (typeOf_not ht).1
    rfl
  | .cond .., _, ht => by
    obtain ⟨ct, yt, nt, -, hy, hn, -, hjoin⟩ := typeOf_cond ht
    obtain ⟨rfl, -⟩ | ⟨rfl, -⟩ := Hierarchy.join?_eq_some hjoin
    · exact not_isMissing_typeOf hn
    · exact not_isMissing_typeOf hy
  | .print _ e, _, ht => not_isMissing_typeOf (e := e) ht
  | .id _ _ none, _, ht | .call _ _ _ none, _, ht | .send _ _ _ _ _ none, _, ht => nomatch ht
  | .id _ _ (some _), _, ht => Typing.not_isMissing_value ht
  | .call _ _ _ (some _), _, ht => by
    obtain ⟨⟨ps, ret⟩, hcallee, ht⟩ := bind_eq_ok_iff.mp ht
    obtain ⟨rfl, -⟩ := arguments_eq_ok ht
    exact Typing.not_isMissing_callee hcallee
  | .new .., _, ht => by
    obtain ⟨-, -, -, -, -, -, rfl, -⟩ := typeOf_new ht
    rfl
  | .send _ _ _ _ _ (some _), _, ht => by
    obtain ⟨⟨ps, ret⟩, hcallee, ht⟩ := bind_eq_ok_iff.mp ht
    obtain ⟨rfl, -⟩ := arguments_eq_ok ht
    exact Typing.not_isMissing_callee hcallee

end Foolscap
