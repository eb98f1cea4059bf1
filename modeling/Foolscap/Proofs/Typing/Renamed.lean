import Foolscap.Proofs.Scope.Renamed
import Foolscap.Typing
import Mathlib.Data.List.Forall2

/-!
# Typing renamed programs

Types are compared by the names of classes, and nothing is asked of a name but whether it is another
one.  So a renamed program has the renamed type, and its check ends for the same reasons at the same
places.

## Design Notes

The wording of a type error joins the names of a receiver and a method to one text, so it is not the
renamed wording.
-/

namespace Foolscap

open List

variable {r : Text → Text}

/-! ### Types -/

mutual

theorem IsRenaming.isComplete (h : IsRenaming r) : ∀ t : Ty, (t.rename r).isComplete = t.isComplete
  | .int | .bool | .null | .missing _ => rfl
  | .ref name => by rw [h.ref, Ty.isComplete, Ty.isComplete, h.isEmpty]
  | .arrow params ret => by
    rw [Ty.rename, Ty.isComplete, Ty.isComplete, h.allComplete params, h.isComplete ret]
  | .cls _ fields methods => by
    rw [Ty.rename, Ty.isComplete, Ty.isComplete, h.allComplete fields, h.allComplete methods]

theorem IsRenaming.allComplete (h : IsRenaming r) : ∀ ts : List Ty,
    Ty.allComplete (Ty.renameAll r ts) = Ty.allComplete ts
  | [] => rfl
  | t :: ts => by
    rw [Ty.renameAll, Ty.allComplete, Ty.allComplete, h.isComplete t, h.allComplete ts]

end

section

variable (h : IsRenaming r) (H : Hierarchy)

include h

/-- The way up the superclasses is the renamed way, as long as it is. -/
theorem IsRenaming.climb (fuel : Nat) (seen : List Text) (name : Text) :
    Hierarchy.climb (H.rename r r) fuel (seen.map r) (r name) =
      (Hierarchy.climb H fuel seen name).map r := by
  induction fuel generalizing seen name with
  | zero => rfl
  | succ fuel ih =>
    rw [Hierarchy.climb, Hierarchy.climb, h.get?]
    cases H.get? name with
    | none => rfl
    | some super =>
      simp only [Option.map_some, mem_map_of_injective h.injective]
      split
      · rfl
      · rw [map_cons, ← ih]
        rfl

theorem IsRenaming.isSubclass (a b : Text) :
    Hierarchy.isSubclass (H.rename r r) (r a) (r b) = Hierarchy.isSubclass H a b := by
  have hlength : (Table.rename r r H).length = H.length := length_map _
  have hclimb := h.climb H H.length [a] a
  rw [map_singleton] at hclimb
  rw [Hierarchy.isSubclass, Hierarchy.isSubclass, Hierarchy.superclasses, Hierarchy.superclasses,
    hlength, hclimb, Bool.eq_iff_iff]
  simp [h.eq_iff, mem_map_of_injective h.injective]

end

mutual

/-- Renamed types compare as the types do. -/
theorem IsRenaming.compare (h : IsRenaming r) (H : Hierarchy) : ∀ (up : Bool) (a b : Ty),
    Hierarchy.compare (H.rename r r) up (a.rename r) (b.rename r) = Hierarchy.compare H up a b
  | up, .int, b | up, .bool, b | up, .null, b | up, .missing _, b => by
    cases b with
    | ref name => rw [h.ref]; rfl
    | _ => rfl
  | up, .ref a, b => by
    rw [h.ref]
    cases b with
    | ref b => rw [h.ref, Hierarchy.compare, Hierarchy.compare, h.isSubclass, h.isSubclass]
    | _ => rfl
  | up, .arrow ps t, b => by
    cases b with
    | arrow qs u =>
      rw [Ty.rename, Ty.rename, Hierarchy.compare, Hierarchy.compare, h.compare H up t u,
        h.compareAll H (!up) ps qs]
    | ref name => rw [h.ref]; rfl
    | _ => rfl
  | up, .cls _ _ _, b => by
    cases b with
    | ref name => rw [h.ref]; rfl
    | _ => rfl

theorem IsRenaming.compareAll (h : IsRenaming r) (H : Hierarchy) : ∀ (up : Bool) (as bs : List Ty),
    Hierarchy.compareAll (H.rename r r) up (Ty.renameAll r as) (Ty.renameAll r bs) =
      Hierarchy.compareAll H up as bs
  | _, [], [] | _, [], _ :: _ | _, _ :: _, [] => rfl
  | up, a :: as, b :: bs => by
    rw [Ty.renameAll, Ty.renameAll, Hierarchy.compareAll, Hierarchy.compareAll, h.compare H up a b,
      h.compareAll H up as bs]

end

section

variable (h : IsRenaming r) (H : Hierarchy)

include h

theorem IsRenaming.isSubtype (a b : Ty) :
    Hierarchy.isSubtype (H.rename r r) (a.rename r) (b.rename r) = Hierarchy.isSubtype H a b :=
  h.compare H true a b

theorem IsRenaming.join? (a b : Ty) :
    Hierarchy.join? (H.rename r r) (a.rename r) (b.rename r) =
      (Hierarchy.join? H a b).map (Ty.rename r) := by
  rw [Hierarchy.join?, Hierarchy.join?, h.isSubtype, h.isSubtype]
  split
  · rfl
  · split <;> rfl

end

/-! ### Reasons -/

/-- Where something is wrong, and the phase that found it. -/
def Diagnostic.place (d : Diagnostic) : Position × Phase := (d.pos, d.phase)

/-- Two reasons why a check ended are of one kind, and what they report is at one place and of one
phase. -/
inductive Halt.Alike : Halt → Halt → Prop where
  | ill {d d' : Diagnostic} (pos : d'.pos = d.pos) (phase : d'.phase = d.phase) :
      Alike (.ill d) (.ill d')
  | incomplete : Alike .incomplete .incomplete
  | broken : Alike .broken .broken

theorem Halt.Alike.illAt (pos : Position) (e e' : TypeError) :
    Halt.Alike (.illAt pos e) (.illAt pos e') := .ill rfl rfl

namespace Typing

/-- Two checks come to the same, up to the names in what they return and the wording of errors. -/
inductive Renames {α β : Type} (f : α → β) : Except Halt α → Except Halt β → Prop where
  | ok (a : α) : Renames f (.ok a) (.ok (f a))
  | error {e e' : Halt} (h : Halt.Alike e e') : Renames f (.error e) (.error e')

namespace Renames

variable {α β γ δ : Type} {f : α → β} {g : γ → δ}

theorem bind {x : Except Halt α} {x' : Except Halt β} {k : α → Except Halt γ}
    {k' : β → Except Halt δ} (h : Renames f x x') (hk : ∀ a, Renames g (k a) (k' (f a))) :
    Renames g (x >>= k) (x' >>= k') := by
  cases h with
  | ok a => exact hk a
  | error he => exact .error he

theorem illAt (pos : Position) (e e' : TypeError) :
    Renames f (.error (.illAt pos e)) (.error (.illAt pos e')) := .error (.illAt pos e e')

theorem ite {b b' : Bool} {x y : Except Halt α} {x' y' : Except Halt β} (hb : b' = b)
    (hx : Renames f x x') (hy : Renames f y y') :
    Renames f (if b then x else y) (if b' then x' else y') := by
  rw [hb]
  split
  · exact hx
  · exact hy

/-- Something is applied to as many arguments as it takes, or not, and has a type. -/
theorem applied {n n' k k' : Nat} {x x' : Except Halt Unit} (hn : n' = n) (hk : k' = k)
    (hx : Renames id x x') (t : Ty) (pos : Position) (e e' : TypeError) :
    Renames (Ty.rename r)
      (if n = k then do { x; .ok t } else .error (.illAt pos e))
      (if n' = k' then do { x'; .ok (t.rename r) } else .error (.illAt pos e')) := by
  rw [hn, hk]
  split
  · exact .bind hx fun _ => .ok t
  · exact .illAt ..

end Renames

variable (h : IsRenaming r) (H : Hierarchy) (pos : Position)

include h

theorem renames_operation (op : BinaryOp) (a b : Ty) :
    Renames (Ty.rename r) (operation H pos op a b)
      (operation (H.rename r r) pos op (a.rename r) (b.rename r)) := by
  have hint := fun t => h.isSubtype H t .int
  have hbool := fun t => h.isSubtype H t .bool
  have harithmetic : Renames (Ty.rename r) (arithmetic H pos op a b)
      (arithmetic (H.rename r r) pos op (a.rename r) (b.rename r)) :=
    .ite (congrArg₂ _ (hint a) (hint b)) (.ok Ty.int) (.illAt ..)
  have hcomparison : Renames (Ty.rename r) (comparison H pos op a b)
      (comparison (H.rename r r) pos op (a.rename r) (b.rename r)) :=
    .ite (congrArg₂ _ (h.isSubtype H a b) (h.isSubtype H b a)) (.ok Ty.bool) (.illAt ..)
  have hlogical : Renames (Ty.rename r) (logical H pos op a b)
      (logical (H.rename r r) pos op (a.rename r) (b.rename r)) :=
    .ite (congrArg₂ _ (hbool a) (hbool b)) (.ok Ty.bool) (.illAt ..)
  cases op <;> first | exact harithmetic | exact hcomparison | exact hlogical

theorem renames_value (name : Text) (e : Entry) :
    Renames (Ty.rename r) (value pos name e) (value pos (r name) (e.rename r)) := by
  have hkind : (e.rename r).kind = e.kind := rfl
  have hcomplete : (e.rename r).ty.isComplete = e.ty.isComplete := h.isComplete e.ty
  rw [value, value, hkind]
  cases e.kind <;>
    first | exact .illAt .. | exact .ite hcomplete (.ok e.ty) (.error .incomplete)

theorem renames_callee (err err' : TypeError) (t : Ty) :
    Renames (fun x : List Ty × Ty => (x.1.map (Ty.rename r), x.2.rename r)) (callee pos err t)
      (callee pos err' (t.rename r)) := by
  cases t with
  | arrow params ret =>
    have hcomplete := h.isComplete (.arrow params ret)
    rw [Ty.rename, Ty.renameAll_eq_map] at hcomplete ⊢
    exact .ite hcomplete (.ok (params, ret)) (.error .incomplete)
  | missing shape =>
    rcases shape with _ | (_ | _ | _ | _ | _ | _) <;>
      first | exact .illAt .. | exact .error .incomplete
  | ref name =>
    rw [h.ref]
    exact .illAt ..
  | int | bool | null | cls => exact .illAt ..

theorem renames_constructed (name : Text) (t : Ty) :
    Renames (List.map (Ty.rename r)) (constructed pos name t)
      (constructed pos (r name) (t.rename r)) := by
  cases t with
  | cls origin fields methods =>
    have hcomplete := h.isComplete (.cls origin fields methods)
    rw [Ty.rename, Ty.renameAll_eq_map, Ty.renameAll_eq_map] at hcomplete ⊢
    exact .ite hcomplete (.ok fields) (.error .incomplete)
  | ref name =>
    rw [h.ref]
    exact .illAt ..
  | int | bool | null | arrow | missing => exact .illAt ..

end Typing

/-! ### Expressions -/

theorem length_renameArgs (es : List Expr) : (renameArgs r es).length = es.length := by
  induction es with
  | nil => rfl
  | cons e es ih => rw [renameArgs, length_cons, ih, length_cons]

open Typing (Renames)

mutual

/-- The type of a renamed expression is the renamed type. -/
theorem IsRenaming.typeOf (h : IsRenaming r) (H : Hierarchy) : ∀ e : Expr,
    Renames (Ty.rename r) (e.typeOf H) ((e.rename r).typeOf (H.rename r r))
  | .missing => .error .broken
  | .binary sp op left right => by
    rw [Expr.rename, Expr.typeOf, Expr.typeOf]
    exact .bind (h.typeOf H left) fun a => .bind (h.typeOf H right) fun b =>
      Typing.renames_operation h H _ op a b
  | .not sp e => by
    rw [Expr.rename, Expr.typeOf, Expr.typeOf]
    exact .bind (h.typeOf H e) fun t => .ite (h.isSubtype H t .bool) (.ok Ty.bool) (.illAt ..)
  | .cond sp test yes no => by
    rw [Expr.rename, Expr.typeOf, Expr.typeOf]
    refine .bind (h.typeOf H test) fun t => .ite (h.isSubtype H t .bool) ?_ (.illAt ..)
    refine .bind (h.typeOf H yes) fun a => .bind (h.typeOf H no) fun b => ?_
    rw [h.join?]
    cases H.join? a b with
    | none => exact .illAt ..
    | some t => exact .ok t
  | .print _ e => h.typeOf H e
  | .int _ _ => .ok Ty.int
  | .bool _ _ => .ok Ty.bool
  | .null _ => .ok Ty.null
  | .id sp name use => by
    cases use with
    | none => exact .illAt ..
    | some u => exact Typing.renames_value h _ name u.entry
  | .call sp name as use => by
    cases use with
    | none => exact .illAt ..
    | some u =>
      simp only [Expr.rename, Expr.typeOf, Option.map_some]
      refine .bind (Typing.renames_callee h _ _ _ u.entry.ty) fun (params, ret) => ?_
      exact .applied (length_renameArgs as) (length_map _) (h.checkArgs H _ _ 1 as params) ..
  | .new sp name as entry => by
    cases entry with
    | none => exact .illAt ..
    | some e =>
      simp only [Expr.rename, Expr.typeOf, Option.map_some]
      refine .bind (Typing.renames_constructed h _ name e.ty) fun fields => ?_
      rw [← h.ref]
      exact .applied (length_renameArgs as) (length_map _) (h.checkArgs H _ _ 1 as fields) ..
  | .send sp receiver method as use target => by
    cases target with
    | none => exact .illAt ..
    | some e =>
      simp only [Expr.rename, Expr.typeOf, Option.map_some]
      refine .bind (Typing.renames_callee h _ _ _ e.ty) fun (params, ret) => ?_
      exact .applied (length_renameArgs as) (length_map _) (h.checkArgs H _ _ 1 as params) ..

theorem IsRenaming.checkArgs (h : IsRenaming r) (H : Hierarchy)
    (wrong wrong' : Nat → Ty → Ty → TypeError) : ∀ (i : Nat) (es : List Expr) (wants : List Ty),
    Renames id (Foolscap.checkArgs H wrong i es wants)
      (Foolscap.checkArgs (H.rename r r) wrong' i (renameArgs r es) (wants.map (Ty.rename r)))
  | _, [], _ => .ok ()
  | _, _ :: _, [] => .ok ()
  | i, e :: es, want :: wants => by
    rw [renameArgs, map_cons, Foolscap.checkArgs, Foolscap.checkArgs, Expr.start_rename]
    exact .bind (h.typeOf H e) fun got => .ite (h.isSubtype H got want)
      (h.checkArgs H wrong wrong' (i + 1) es wants) (.illAt ..)

end

/-! ### Declarations -/

/-- Checks end for reasons that differ in their wording only. -/
def Halt.AllAlike (hs hs' : List Halt) : Prop := List.Forall₂ Halt.Alike hs hs'

namespace Halt.AllAlike

theorem nil : AllAlike [] [] := List.Forall₂.nil

theorem single {e e' : Halt} (h : Halt.Alike e e') : AllAlike [e] [e'] := List.Forall₂.cons h .nil

theorem append {hs hs' ks ks' : List Halt} (h : AllAlike hs hs') (hk : AllAlike ks ks') :
    AllAlike (hs ++ ks) (hs' ++ ks') := rel_append h hk

theorem ite {b b' : Bool} {hs hs' ks ks' : List Halt} (hb : b' = b) (h : AllAlike hs hs')
    (hk : AllAlike ks ks') : AllAlike (if b then hs else ks) (if b' then hs' else ks') := by
  rw [hb]
  split
  · exact h
  · exact hk

end Halt.AllAlike

open Halt (AllAlike)

namespace Typing

variable (h : IsRenaming r) (H : Hierarchy)

theorem allAlike_halts {α β : Type} {f : α → β} {x : Except Halt α} {x' : Except Halt β}
    (hx : Renames f x x') : AllAlike (halts x) (halts x') := by
  cases hx with
  | ok => exact .nil
  | error he => exact .single he

include h

theorem allAlike_conforms (e : Expr) (want : Ty) {wrong wrong' : Ty → Halt}
    (hwrong : ∀ got, Halt.Alike (wrong got) (wrong' (got.rename r))) :
    AllAlike (conforms H e want wrong)
      (conforms (H.rename r r) (e.rename r) (want.rename r) wrong') := by
  have htype := h.typeOf H e
  rw [conforms, conforms]
  generalize e.typeOf H = x at htype ⊢
  generalize (e.rename r).typeOf (H.rename r r) = x' at htype ⊢
  cases htype with
  | ok got => exact .ite (h.isSubtype H got want) .nil (.single (hwrong got))
  | error he => exact .single he

theorem allAlike_var (v : VarDecl) :
    AllAlike (Typing.var H v) (Typing.var (H.rename r r) (v.rename r)) :=
  .ite (h.isComplete v.annotation.ty)
    (allAlike_conforms h H v.value v.annotation.ty fun _ => .illAt ..) (.single .incomplete)

/-- Two types at one position of lists of types are compared, if both lists reach so far. -/
theorem allAlike_refinesAt (own super : List Ty) (position : Int) (pos : Position)
    {wrong wrong' : Ty → Ty → TypeError} :
    AllAlike (refinesAt H own super position fun got want => .illAt pos (wrong got want))
      (refinesAt (H.rename r r) (own.map (Ty.rename r)) (super.map (Ty.rename r)) position
        fun got want => .illAt pos (wrong' got want)) := by
  rw [refinesAt, refinesAt, length_map, List.getElem?_map, List.getElem?_map]
  split
  · split
    · exact .single .broken
    cases own[position.toNat]? with
    | none => exact .single .broken
    | some got =>
      cases super[position.toNat]? with
      | none => exact .single .broken
      | some want => exact .ite (h.isSubtype H got want) .nil (.single (.illAt ..))
  · exact .nil

theorem allAlike_refinesFields (cls : Text) (own super : List Ty) (fs : List Field) :
    AllAlike (fs.flatMap (refinesField H cls own super))
      ((fs.map (Field.rename r)).flatMap (refinesField (H.rename r r) (r cls)
        (own.map (Ty.rename r)) (super.map (Ty.rename r)))) := by
  induction fs with
  | nil => exact .nil
  | cons f fs ih => exact .append (allAlike_refinesAt h H own super _ _) ih

theorem allAlike_refinesMethods (cls : Text) (own super : List Ty) (ms : List Method) :
    AllAlike (ms.flatMap (refinesMethod H cls own super))
      ((renameMethods r ms).flatMap (refinesMethod (H.rename r r) (r cls)
        (own.map (Ty.rename r)) (super.map (Ty.rename r)))) := by
  induction ms with
  | nil => exact .nil
  | cons m ms ih =>
    obtain ⟨f, offset⟩ := m
    rw [renameMethods, flatMap_cons, flatMap_cons, refinesMethod, refinesMethod, f.span_rename]
    exact .append (allAlike_refinesAt h H own super _ _) ih

/-- The checks of a class against its superclass compare types at places, so they end alike. -/
theorem allAlike_refines (cls : Text) (fs : List Field) (ms : List Method)
    (entry superEntry : Option Entry) :
    AllAlike (refines H cls fs ms entry superEntry)
      (refines (H.rename r r) (r cls) (fs.map (Field.rename r)) (renameMethods r ms)
        (entry.map (Entry.rename r)) (superEntry.map (Entry.rename r))) := by
  cases superEntry with
  | none => exact .nil
  | some s =>
    have hsuper : (s.rename r).ty = s.ty.rename r := rfl
    cases entry with
    | none => exact .single .incomplete
    | some e =>
      have hown : (e.rename r).ty = e.ty.rename r := rfl
      simp only [refines, Option.map_some, hown, hsuper]
      cases e.ty with
      | cls _ ownFields ownMethods =>
        cases s.ty with
        | cls _ superFields superMethods =>
          simp only [Ty.rename, Ty.renameAll_eq_map]
          exact .append (allAlike_refinesFields h H cls ownFields superFields fs)
            (allAlike_refinesMethods h H cls ownMethods superMethods ms)
        | ref name => rw [h.ref]; exact .single .incomplete
        | int | bool | null | arrow | missing => exact .single .incomplete
      | ref name => rw [h.ref]; exact .single .incomplete
      | int | bool | null | arrow | missing => exact .single .incomplete

end Typing

mutual

theorem IsRenaming.checkDecl (h : IsRenaming r) (H : Hierarchy) : ∀ d : Decl,
    AllAlike (d.check H) ((d.rename r).check (H.rename r r))
  | .var v => Typing.allAlike_var h H v
  | .fn f => h.checkRoutine H false f
  | .cls c => h.checkClass H c

theorem IsRenaming.checkRoutine (h : IsRenaming r) (H : Hierarchy) : ∀ (isMethod : Bool)
    (f : Routine), AllAlike (f.check H isMethod) ((f.rename r).check (H.rename r r) isMethod)
  | isMethod, ⟨span, name, ret, params, decls, body⟩ => by
    have hcomplete := h.isComplete (Routine.signature ⟨span, name, ret, params, decls, body⟩)
    rw [← Routine.signature_rename, Routine.rename] at hcomplete
    rw [Routine.rename, Routine.check, Routine.check]
    exact .ite hcomplete (.append (h.checkDecls H decls)
      (Typing.allAlike_conforms h H body ret.ty fun _ => .illAt ..)) (.single .incomplete)

theorem IsRenaming.checkClass (h : IsRenaming r) (H : Hierarchy) : ∀ c : ClassDecl,
    AllAlike (c.check H) ((c.rename r).check (H.rename r r))
  | ⟨_, name, _, fields, methods, entry, superEntry⟩ => by
    rw [ClassDecl.rename, ClassDecl.check, ClassDecl.check]
    exact .append (h.checkMethods H methods)
      (Typing.allAlike_refines h H name fields methods entry superEntry)

theorem IsRenaming.checkDecls (h : IsRenaming r) (H : Hierarchy) : ∀ ds : List Decl,
    AllAlike (Foolscap.checkDecls H ds) (Foolscap.checkDecls (H.rename r r) (renameDecls r ds))
  | [] => .nil
  | d :: ds => .append (h.checkDecl H d) (h.checkDecls H ds)

theorem IsRenaming.checkMethods (h : IsRenaming r) (H : Hierarchy) : ∀ ms : List Method,
    AllAlike (Foolscap.checkMethods H ms)
      (Foolscap.checkMethods (H.rename r r) (renameMethods r ms))
  | [] => .nil
  | ⟨f, _⟩ :: ms => .append (h.checkRoutine H true f) (h.checkMethods H ms)

end

namespace Halt.AllAlike

variable {hs hs' : List Halt} (h : AllAlike hs hs')

include h

theorem errors : (Typing.errors hs').map Diagnostic.place =
    (Typing.errors hs).map Diagnostic.place := by
  induction h with
  | nil => rfl
  | cons he _ ih =>
    cases he with
    | ill hpos hphase => simp only [Typing.errors, map_cons, ih, Diagnostic.place, hpos, hphase]
    | incomplete => exact ih
    | broken => exact ih

theorem anyBroken : Typing.anyBroken hs' = Typing.anyBroken hs := by
  induction h with
  | nil => rfl
  | cons he _ ih =>
    cases he with
    | ill => exact ih
    | incomplete => exact ih
    | broken => rfl

end Halt.AllAlike

/-- Two checks find the same, up to names and wording. -/
structure Checked.Alike (r : Text → Text) (c c' : Checked) : Prop where
  ty : c'.ty = c.ty.map (Ty.rename r)
  errors : c'.errors.map Diagnostic.place = c.errors.map Diagnostic.place
  broken : c'.broken = c.broken

/-- The check of a renamed program finds the renamed type, and errors at the same places. -/
theorem IsRenaming.check (h : IsRenaming r) (H : Hierarchy) (p : Program) :
    Checked.Alike r (p.check H) ((p.rename r).check (H.rename r r)) := by
  have hclasses : AllAlike (p.classes.flatMap (ClassDecl.check H))
      ((p.classes.map (ClassDecl.rename r)).flatMap (ClassDecl.check (H.rename r r))) := by
    rw [flatMap_map]
    generalize p.classes = cs
    induction cs with
    | nil => exact .nil
    | cons c cs ih => exact .append (h.checkClass H c) ih
  have hbody := h.typeOf H p.body
  have hall := (hclasses.append (h.checkDecls H p.decls)).append (Typing.allAlike_halts hbody)
  refine ⟨?_, hall.errors, hall.anyBroken⟩
  show ((p.body.rename r).typeOf (H.rename r r)).toOption = _
  rw [Program.check]
  generalize p.body.typeOf H = x at hbody ⊢
  generalize (p.body.rename r).typeOf (H.rename r r) = x' at hbody ⊢
  cases hbody with
  | ok t => rfl
  | error _ => rfl

end Foolscap
