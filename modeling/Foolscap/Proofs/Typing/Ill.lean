import Foolscap.Proofs.Scope.Complete
import Foolscap.Typing

/-!
# Checks end with type errors

A check of an expression ends with a type, with a type error, because a type is incomplete, or
because something is missing.  In complete scopes no type is incomplete, so nothing is skipped in
silence.  Where no expression is missing either, every diagnostic of the check is a type error.
-/

namespace Foolscap

open List

/-- A type error. -/
def Halt.IsIll (x : Halt) : Prop := ∃ pos e, x = .illAt pos e

namespace Typing

/-- All reasons for which checks ended are type errors. -/
def Ill (hs : List Halt) : Prop := ∀ x ∈ hs, x.IsIll

theorem ill_nil : Ill [] := fun _ hx => absurd hx not_mem_nil

theorem ill_append {hs hs' : List Halt} (h : Ill hs) (h' : Ill hs') : Ill (hs ++ hs') :=
  fun x hx => (mem_append.mp hx).elim (h x) (h' x)

theorem ill_singleton (pos : Position) (e : TypeError) : Ill [.illAt pos e] :=
  fun _ hx => ⟨pos, e, mem_singleton.mp hx⟩

namespace Ill

variable {hs : List Halt}

/-- Nothing was missing. -/
theorem anyBroken (h : Ill hs) : Typing.anyBroken hs = false := by
  induction hs with
  | nil => rfl
  | cons x hs ih =>
    obtain ⟨pos, e, rfl⟩ := h x mem_cons_self
    exact ih (forall_mem_cons.mp h).2

/-- All diagnostics are type errors. -/
theorem phase (h : Ill hs) : ∀ d ∈ errors hs, d.phase = .typing := by
  induction hs with
  | nil => exact fun d hd => absurd hd not_mem_nil
  | cons x hs ih =>
    obtain ⟨pos, e, rfl⟩ := h x mem_cons_self
    intro d hd
    rcases mem_cons.mp hd with rfl | hd
    · rfl
    · exact ih (forall_mem_cons.mp h).2 d hd

/-- Where there are no errors all checks ended well. -/
theorem eq_nil (h : Ill hs) (he : errors hs = []) : hs = [] := by
  cases hs with
  | nil => rfl
  | cons x hs =>
    obtain ⟨pos, e, rfl⟩ := h x mem_cons_self
    cases he

end Ill

/-! ### Expressions -/

/-- A check that ends with a result or with a type error, or, if the tree is not whole, for want of
something. -/
def Ends {α : Type} (whole : Prop) (x : Except Halt α) : Prop :=
  ∀ e, x = .error e → e.IsIll ∨ e = .broken ∧ ¬ whole

namespace Ends

variable {α β : Type} {whole : Prop}

theorem ok (a : α) : Ends whole (.ok a) := fun _ h => nomatch h

theorem illAt (pos : Position) (e : TypeError) :
    Ends whole (.error (.illAt pos e) : Except Halt α) := by
  intro x h
  cases h
  exact .inl ⟨pos, e, rfl⟩

variable {x : Except Halt α}

theorem mono {part : Prop} (h : Ends part x) (hp : whole → part) : Ends whole x :=
  fun e he => (h e he).imp_right fun ⟨hb, hn⟩ => ⟨hb, fun hw => hn (hp hw)⟩

theorem bind {f : α → Except Halt β} (hx : Ends whole x) (hf : ∀ a, Ends whole (f a)) :
    Ends whole (x >>= f) := by
  cases x with
  | ok a => exact hf a
  | error e =>
    intro e' h
    cases h
    exact hx e rfl

theorem isIll {e : Halt} (h : Ends whole x) (hw : whole) (he : x = .error e) : e.IsIll :=
  (h e he).resolve_right fun hb => hb.2 hw

theorem halts (h : Ends whole x) (hw : whole) : Ill (Typing.halts x) := by
  cases hx : x with
  | ok a => exact ill_nil
  | error e =>
    intro y hy
    rw [mem_singleton.mp hy]
    exact h.isIll hw hx

/-- Nothing is skipped for an incomplete type. -/
theorem ne_incomplete (h : Ends whole x) : x ≠ .error .incomplete := by
  intro hx
  obtain ⟨pos, e, hill⟩ | ⟨hbroken, -⟩ := h _ hx
  · cases hill
  · cases hbroken

end Ends

variable {whole : Prop}

theorem operation_ends (h : Hierarchy) (pos : Position) (op : BinaryOp) (l r : Ty) :
    Ends whole (operation h pos op l r) := by
  cases op <;> simp only [operation, arithmetic, comparison, logical] <;> split <;>
    first | exact .ok _ | exact .illAt _ _

variable {pos : Position}

theorem callee_ends {err : TypeError} {t : Ty} (ht : t.isComplete) :
    Ends whole (callee pos err t) := by
  cases t with
  | arrow ps r =>
    rw [callee, if_pos ht]
    exact .ok _
  | missing s => cases ht
  | _ => exact .illAt _ _

theorem constructed_ends {name : Text} {t : Ty} (ht : t.isComplete) :
    Ends whole (constructed pos name t) := by
  cases t with
  | cls o fs ms =>
    rw [constructed, if_pos ht]
    exact .ok _
  | _ => exact .illAt _ _

theorem value_ends {name : Text} {e : Entry} (he : e.ty.isComplete) :
    Ends whole (value pos name e) := by
  rw [value]
  split
  · exact .illAt _ _
  · exact .illAt _ _
  · exact .illAt _ _
  · rw [if_pos he]
    exact .ok _

end Typing

open Typing

section

variable {s : Scopes} {h : Hierarchy}

mutual

/-- In complete scopes the check of an expression ends with a type or with a type error, unless a
part of the expression is missing. -/
theorem Expr.typeOf_bind_ends (hs : s.Complete) :
    ∀ e : Expr, Ends e.Whole ((e.bind s).typeOf h)
  | .missing => by
    rintro e ⟨⟩
    exact .inr ⟨rfl, id⟩
  | .binary _ _ l r => by
    rw [Expr.bind, Expr.typeOf]
    exact ((Expr.typeOf_bind_ends hs l).mono fun hw => hw.1).bind fun _ =>
      ((Expr.typeOf_bind_ends hs r).mono fun hw => hw.2).bind fun _ => operation_ends _ _ _ _ _
  | .not _ e => by
    rw [Expr.bind, Expr.typeOf]
    refine ((Expr.typeOf_bind_ends hs e).mono fun hw => hw).bind fun _ => ?_
    split
    · exact .ok _
    · exact .illAt _ _
  | .cond _ c t e => by
    rw [Expr.bind, Expr.typeOf]
    refine ((Expr.typeOf_bind_ends hs c).mono fun hw => hw.1).bind fun _ => ?_
    split
    · refine ((Expr.typeOf_bind_ends hs t).mono fun hw => hw.2.1).bind fun _ =>
        ((Expr.typeOf_bind_ends hs e).mono fun hw => hw.2.2).bind fun _ => ?_
      split
      · exact .ok _
      · exact .illAt _ _
    · exact .illAt _ _
  | .print _ e => by
    rw [Expr.bind, Expr.typeOf]
    exact (Expr.typeOf_bind_ends hs e).mono fun hw => hw
  | .int _ _ | .bool _ _ | .null _ => by
    rw [Expr.bind, Expr.typeOf]
    exact .ok _
  | .id _ name _ => by
    rw [Expr.bind]
    cases hu : s.use? name with
    | none => exact .illAt _ _
    | some u => exact value_ends (hs.use? hu)
  | .call _ name as _ => by
    rw [Expr.bind]
    cases hu : s.use? name with
    | none => exact .illAt _ _
    | some u =>
      rw [Expr.typeOf]
      refine (callee_ends (hs.use? hu)).bind ?_
      rintro ⟨params, ret⟩
      dsimp only
      split
      · exact ((checkArgs_bindAll_ends hs _ _ as _).mono fun hw => hw).bind fun _ => .ok _
      · exact .illAt _ _
  | .new _ name as _ => by
    rw [Expr.bind]
    cases he : s.class? name with
    | none => exact .illAt _ _
    | some e =>
      rw [Expr.typeOf]
      refine (constructed_ends (hs.class? he)).bind fun _ => ?_
      split
      · exact ((checkArgs_bindAll_ends hs _ _ as _).mono fun hw => hw).bind fun _ => .ok _
      · exact .illAt _ _
  | .send _ receiver method as _ _ => by
    rw [Expr.bind]
    cases he : (s.receive receiver method).target? with
    | none => exact .illAt _ _
    | some e =>
      rw [Expr.typeOf]
      refine (callee_ends (hs.target? he)).bind ?_
      rintro ⟨params, ret⟩
      dsimp only
      split
      · exact ((checkArgs_bindAll_ends hs _ _ as _).mono fun hw => hw).bind fun _ => .ok _
      · exact .illAt _ _

theorem checkArgs_bindAll_ends (hs : s.Complete) (wrong : Nat → Ty → Ty → TypeError) (i : Nat) :
    ∀ (es : List Expr) (wants : List Ty),
      Ends (AllWhole es) (checkArgs h wrong i (bindAll s es) wants)
  | [], _ | _ :: _, [] => by
    rw [bindAll, checkArgs]
    exact .ok _
  | e :: es, want :: wants => by
    rw [bindAll, checkArgs]
    refine ((Expr.typeOf_bind_ends hs e).mono fun hw => hw.1).bind fun _ => ?_
    split
    · exact (checkArgs_bindAll_ends hs wrong (i + 1) es wants).mono fun hw => hw.2
    · exact .illAt _ _

end

end

/-! ### Declarations -/

namespace Typing

variable {h : Hierarchy}

/-- A check against a type that is wanted ends with a type error or finds nothing. -/
theorem conforms_ill {whole : Prop} {e : Expr} (he : Ends whole (e.typeOf h)) (hw : whole)
    (want : Ty) {wrong : Ty → Halt} (hwrong : ∀ t, (wrong t).IsIll) :
    Ill (conforms h e want wrong) := by
  rw [conforms]
  split
  · next x hx =>
    intro y hy
    rw [mem_singleton.mp hy]
    exact he.isIll hw hx
  · split
    · exact ill_nil
    · intro y hy
      rw [mem_singleton.mp hy]
      exact hwrong _

variable {cls : Text} {own super : List Ty}

theorem ill_flatMap {α : Type} {as : List α} {f : α → List Halt} (h : ∀ a ∈ as, Ill (f a)) :
    Ill (as.flatMap f) := by
  intro x hx
  obtain ⟨a, ha, hx⟩ := mem_flatMap.mp hx
  exact h a ha x hx

/-- The check of a member that lies at a position of the class ends with type errors only.  So no
list of types is indexed below its start or past its end. -/
theorem refinesAt_ill (hle : super.length ≤ own.length) (i : Nat) {pos : Position}
    {wrong : Ty → Ty → TypeError} :
    Ill (refinesAt h own super i fun got want => .illAt pos (wrong got want)) := by
  rw [refinesAt]
  split
  · next hlt =>
    have hi : i < super.length := by omega
    rw [if_neg (by omega), Int.toNat_natCast, List.getElem?_eq_getElem hi,
      List.getElem?_eq_getElem (Nat.lt_of_lt_of_le hi hle)]
    dsimp only
    split
    · exact ill_nil
    · exact ill_singleton _ _
  · exact ill_nil

end Typing

end Foolscap
