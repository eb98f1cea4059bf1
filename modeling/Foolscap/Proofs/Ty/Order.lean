import Mathlib.Data.List.Perm.Subperm
import Mathlib.Logic.Relation
import Foolscap.Ty.Subtype

/-!
# The order of types

Subclasses are what the direct superclass relation reaches, whatever the hierarchy, and the subtype
relation is transitive, and reflexive on types in which nothing is missing.  If no class is above
itself, then types that are subtypes of each other are the same.

## Design Notes

A comparison looks at the leaves of the two types, and of a class type at its origin only.  So what
is asked of a type is asked of its leaves: that none is missing, or that none is a class type.
-/

namespace Foolscap

open List

namespace Ty

mutual

/-- The types without parameters that a type is made of. -/
def leaves : Ty → List Ty
  | arrow params ret => allLeaves params ++ leaves ret
  | t => [t]

/-- The leaves of every type of a list. -/
def allLeaves : List Ty → List Ty
  | [] => []
  | t :: ts => leaves t ++ allLeaves ts

end

/-- Whether a type is that of a class. -/
def isClass : Ty → Bool
  | cls _ _ _ => true
  | _ => false

mutual

theorem leaves_of_isComplete : ∀ t : Ty, t.isComplete → ∀ l ∈ t.leaves, l.isMissing = false
  | .int, _ | .bool, _ | .null, _ | .ref _, _ => by simp [leaves, isMissing]
  | .arrow ps r, hc => by
    rw [isComplete, Bool.and_eq_true] at hc
    intro l hl
    rw [leaves, mem_append] at hl
    exact hl.elim (allLeaves_of_allComplete ps hc.1 l) (leaves_of_isComplete r hc.2 l)
  | .cls _ _ _, _ => by simp [leaves, isMissing]
  | .missing _, hc => by simp [isComplete] at hc

theorem allLeaves_of_allComplete :
    ∀ ts : List Ty, allComplete ts → ∀ l ∈ allLeaves ts, l.isMissing = false
  | [], _ => by simp [allLeaves]
  | t :: ts, hc => by
    rw [allComplete, Bool.and_eq_true] at hc
    intro l hl
    rw [allLeaves, mem_append] at hl
    exact hl.elim (leaves_of_isComplete t hc.1 l) (allLeaves_of_allComplete ts hc.2 l)

end

end Ty

namespace Hierarchy

variable {h : Hierarchy}

/-! ### Classes -/

/-- The direct superclass relation. -/
def Extends (h : Hierarchy) (a b : Text) : Prop := h.get? a = some b

theorem mem_names_of_get? {α : Type} {t : Table α} {name : Text} {a : α}
    (hg : t.get? name = some a) : name ∈ t.names := by
  induction t with
  | nil => simp at hg
  | cons row t ih =>
    obtain ⟨n, b⟩ := row
    rw [Table.get?_cons] at hg
    split at hg
    · next hn => simp [hn]
    · simp [ih hg]

/-- The walk up from a class past the classes met so far, without a bound on its length: it stops at
a class that has no superclass, and before one that was met. -/
inductive Climbs (h : Hierarchy) : List Text → Text → List Text → Prop where
  | top {seen : List Text} {a : Text} (hnone : h.get? a = none) : Climbs h seen a []
  | again {seen : List Text} {a super : Text} (hs : h.Extends a super) (hseen : super ∈ seen) :
    Climbs h seen a []
  | up {seen chain : List Text} {a super : Text} (hs : h.Extends a super) (hnew : super ∉ seen)
    (rest : Climbs h (super :: seen) super chain) : Climbs h seen a (super :: chain)

/-- The walk up ends before its bound is reached.  The classes met were left one after the other by
the superclass relation, so there are no more of them than rows, the last one apart. -/
theorem climbs_climb (fuel : Nat) {seen : List Text} {a : Text} (hnodup : (a :: seen).Nodup)
    (hrows : ∀ x ∈ seen, x ∈ Table.names h) (hfuel : h.length ≤ fuel + seen.length) :
    h.Climbs (a :: seen) a (climb h fuel (a :: seen) a) := by
  induction fuel generalizing seen a with
  | zero =>
    -- All rows belong to classes that were left, so the last class met has none.
    refine .top (Option.eq_none_iff_forall_ne_some.mpr fun super hs => ?_)
    have hsub : a :: seen ⊆ Table.names h := cons_subset.mpr ⟨mem_names_of_get? hs, hrows⟩
    have hle := (subperm_of_subset hnodup hsub).length_le
    simp only [length_cons, Table.names, length_map] at hle
    omega
  | succ fuel ih =>
    rw [climb]
    split
    · next hnone => exact .top hnone
    · next super hs =>
      split
      · next hseen => exact .again hs hseen
      · next hnew =>
        refine .up hs hnew (ih (nodup_cons.mpr ⟨hnew, hnodup⟩) ?_ ?_)
        · exact forall_mem_cons.mpr ⟨mem_names_of_get? hs, hrows⟩
        · rw [length_cons]
          omega

theorem climbs_superclasses (h : Hierarchy) (name : Text) :
    h.Climbs [name] name (h.superclasses name) :=
  climbs_climb h.length (pairwise_singleton _ name) nofun (Nat.le_refl _)

namespace Climbs

variable {seen chain : List Text} {a b : Text}

section

variable (hc : h.Climbs seen a chain)

include hc

/-- Every class met is the superclass of the one before it. -/
theorem isChain : List.IsChain h.Extends (a :: chain) := by
  induction hc with
  | top | again => exact .singleton _
  | up hs _ _ ih => exact .cons_cons hs ih

/-- No class is met twice. -/
theorem fresh : chain.Nodup ∧ ∀ b ∈ chain, b ∉ seen := by
  induction hc with
  | top | again => exact ⟨.nil, nofun⟩
  | up _ hnew _ ih =>
    obtain ⟨hnodup, hfresh⟩ := ih
    refine ⟨nodup_cons.mpr ⟨fun hmem => hfresh _ hmem mem_cons_self, hnodup⟩, ?_⟩
    exact forall_mem_cons.mpr ⟨hnew, fun b hb hs => hfresh b hb (mem_cons_of_mem _ hs)⟩

/-- Every class met is reached by the superclass relation. -/
theorem reached (hb : b ∈ chain) : Relation.TransGen h.Extends a b := by
  induction hc with
  | top | again => cases hb
  | up hs _ _ ih =>
    rcases mem_cons.mp hb with rfl | hb
    · exact .single hs
    · exact .head hs (ih hb)

/-- The superclass relation does not lead out of the classes met, if it did not before the walk, the
class apart where the walk starts. -/
theorem closed (hseen : ∀ x ∈ seen, x = a ∨ ∀ y, h.Extends x y → y ∈ seen) :
    ∀ x, x ∈ seen ∨ x ∈ chain → ∀ y, h.Extends x y → y ∈ seen ∨ y ∈ chain := by
  induction hc with
  | top hnone =>
    intro x hx y hxy
    rcases hseen x (hx.resolve_right not_mem_nil) with rfl | hclosed
    · cases hnone.symm.trans hxy
    · exact .inl (hclosed y hxy)
  | again hs hmet =>
    intro x hx y hxy
    rcases hseen x (hx.resolve_right not_mem_nil) with rfl | hclosed
    · exact .inl (Option.some.inj (hs.symm.trans hxy) ▸ hmet)
    · exact .inl (hclosed y hxy)
  | @up seen chain a super hs _ _ ih =>
    have hmoved : ∀ x, x ∈ seen ∨ x ∈ super :: chain ↔ x ∈ super :: seen ∨ x ∈ chain := by
      intro x
      rw [mem_cons, mem_cons, or_left_comm, or_assoc]
    simp only [hmoved]
    refine ih (forall_mem_cons.mpr ⟨.inl rfl, fun x hx => .inr fun y hxy => ?_⟩)
    rcases hseen x hx with rfl | hclosed
    · exact Option.some.inj (hs.symm.trans hxy) ▸ mem_cons_self
    · exact mem_cons_of_mem _ (hclosed y hxy)

end

/-- The walk from a class misses nothing that the superclass relation reaches. -/
theorem complete (hc : h.Climbs [a] a chain) (hab : Relation.ReflTransGen h.Extends a b) :
    b = a ∨ b ∈ chain := by
  have hclosed := hc.closed fun x hx => .inl (mem_singleton.mp hx)
  simp only [mem_singleton] at hclosed
  induction hab with
  | refl => exact .inl rfl
  | tail _ hstep ih => exact hclosed _ ih _ hstep

end Climbs

/-- **The walk up ends and misses nothing**, whatever the hierarchy.  Without a bound on its length
it gives the superclasses of a class: no class twice nor the class itself, each the direct
superclass of the one before, and all classes but the class itself that the direct superclass
relation reaches. -/
theorem superclasses_exactly_reached (h : Hierarchy) (name : Text) :
    h.Climbs [name] name (h.superclasses name) ∧
    (h.superclasses name).Nodup ∧ name ∉ h.superclasses name ∧
    List.IsChain h.Extends (name :: h.superclasses name) ∧
    ∀ b, b ∈ h.superclasses name ↔ b ≠ name ∧ Relation.TransGen h.Extends name b := by
  have hc := climbs_superclasses h name
  obtain ⟨hnodup, hfresh⟩ := hc.fresh
  have hself : name ∉ h.superclasses name := fun hmem => hfresh name hmem List.mem_cons_self
  refine ⟨hc, hnodup, hself, hc.isChain, fun b => ⟨fun hb => ⟨?_, hc.reached hb⟩, ?_⟩⟩
  · rintro rfl
    exact hself hb
  · rintro ⟨hne, hpath⟩
    exact (hc.complete hpath.to_reflTransGen).resolve_left hne

-- A class that leads into a cycle: the walk stops before the class that it meets again.
example : superclasses [("A", "B"), ("B", "C"), ("C", "B")] "A" = (["B", "C"] : List Text) := by
  decide

/-- A class is a subclass of exactly the classes that it reaches. -/
theorem isSubclass_iff {a b : Text} : h.isSubclass a b ↔ Relation.ReflTransGen h.Extends a b := by
  have hc := climbs_superclasses h a
  rw [isSubclass, Bool.or_eq_true, beq_iff_eq, contains_iff_mem]
  constructor
  · rintro (rfl | hb)
    · exact .refl
    · exact (hc.reached hb).to_reflTransGen
  · intro hab
    exact (hc.complete hab).imp_left Eq.symm

theorem isSubclass_refl (a : Text) : h.isSubclass a a := isSubclass_iff.mpr .refl

theorem isSubclass_trans {a b c : Text} (hab : h.isSubclass a b) (hbc : h.isSubclass b c) :
    h.isSubclass a c :=
  isSubclass_iff.mpr ((isSubclass_iff.mp hab).trans (isSubclass_iff.mp hbc))

/-- No class is above itself. -/
def Acyclic (h : Hierarchy) : Prop := ∀ name, ¬ Relation.TransGen h.Extends name name

/-- Every class is ranked above its superclass. -/
def Ranked (h : Hierarchy) (rank : Text → Nat) : Prop := ∀ a b, h.Extends a b → rank b < rank a

/-- Ranked classes form no cycle. -/
theorem Ranked.acyclic {rank : Text → Nat} (hrank : h.Ranked rank) : h.Acyclic := by
  have hpath : ∀ a b, Relation.TransGen h.Extends a b → rank b < rank a := by
    intro a b hab
    induction hab with
    | single hstep => exact hrank _ _ hstep
    | tail _ hstep ih => exact Nat.lt_trans (hrank _ _ hstep) ih
  intro name hcycle
  exact Nat.lt_irrefl _ (hpath name name hcycle)

/-- Subclasses of each other are the same class. -/
theorem isSubclass_antisymm (hacyclic : h.Acyclic) {a b : Text} (hab : h.isSubclass a b)
    (hba : h.isSubclass b a) : a = b := by
  rcases Relation.reflTransGen_iff_eq_or_transGen.mp (isSubclass_iff.mp hab) with heq | hpath
  · exact heq.symm
  · exact absurd (hpath.trans_left (isSubclass_iff.mp hba)) (hacyclic a)

/-! ### Types -/

mutual

/-- Every type is below itself if nothing in it is missing. -/
theorem compare_self (up : Bool) :
    ∀ t : Ty, (∀ l ∈ t.leaves, l.isMissing = false) → compare h up t t
  | .int, _ => rfl
  | .bool, _ => rfl
  | .null, _ => rfl
  | .ref name, _ => by simp [compare, isSubclass_refl]
  | .arrow ps r, hl => by
    rw [Ty.leaves, forall_mem_append] at hl
    rw [compare, compare_self up r hl.2, compareAll_self (!up) ps hl.1]
    rfl
  | .cls o _ _, _ => by simp [compare]
  | .missing _, hl => by simp [Ty.leaves, Ty.isMissing] at hl

theorem compareAll_self (up : Bool) :
    ∀ ts : List Ty, (∀ l ∈ Ty.allLeaves ts, l.isMissing = false) → compareAll h up ts ts
  | [], _ => rfl
  | t :: ts, hl => by
    rw [Ty.allLeaves, forall_mem_append] at hl
    rw [compareAll, compare_self up t hl.1, compareAll_self up ts hl.2]
    rfl

end

mutual

/-- What is related to any type lacks nothing. -/
theorem leaves_of_compare (up : Bool) :
    ∀ a b : Ty, compare h up a b → ∀ l ∈ a.leaves, l.isMissing = false
  | .int, _, _ | .bool, _, _ | .null, _, _ | .ref _, _, _ => by simp [Ty.leaves, Ty.isMissing]
  | .arrow ps r, b, hab => by
    cases b with
    | arrow qs s =>
      rw [compare, Bool.and_eq_true] at hab
      rw [Ty.leaves, forall_mem_append]
      exact ⟨allLeaves_of_compareAll (!up) ps qs hab.2, leaves_of_compare up r s hab.1⟩
    | _ => simp [compare] at hab
  | .cls _ _ _, _, _ => by simp [Ty.leaves, Ty.isMissing]
  | .missing _, _, hab => by simp [compare] at hab

theorem allLeaves_of_compareAll (up : Bool) :
    ∀ as bs : List Ty, compareAll h up as bs → ∀ l ∈ Ty.allLeaves as, l.isMissing = false
  | [], _, _ => by simp [Ty.allLeaves]
  | a :: as, bs, hab => by
    cases bs with
    | nil => simp [compareAll] at hab
    | cons b bs =>
      rw [compareAll, Bool.and_eq_true] at hab
      rw [Ty.allLeaves, forall_mem_append]
      exact ⟨leaves_of_compare up a b hab.1, allLeaves_of_compareAll up as bs hab.2⟩

end

/-- A type is a subtype of itself just if none of its leaves is missing. -/
theorem isSubtype_self_iff {t : Ty} : h.isSubtype t t ↔ ∀ l ∈ t.leaves, l.isMissing = false :=
  ⟨leaves_of_compare true t t, compare_self true t⟩

/-- A type in which nothing is missing is a subtype of itself. -/
theorem isSubtype_refl {t : Ty} (ht : t.isComplete) : h.isSubtype t t :=
  isSubtype_self_iff.mpr (Ty.leaves_of_isComplete t ht)

mutual

/-- Comparing the other way round is comparing in the other order. -/
theorem compare_not (up : Bool) : ∀ a b : Ty, compare h (!up) a b = compare h up b a
  | .int, b | .bool, b | .null, b => by cases b <;> simp [compare]
  | .ref a, b => by cases b <;> cases up <;> simp [compare]
  | .arrow ps r, b => by
    cases b with
    | arrow qs s => rw [compare, compare, compare_not up r s, compareAll_not (!up) ps qs]
    | _ => simp [compare]
  | .cls o fs ms, b => by
    cases b with
    | cls p gs ns => rw [compare, compare, Bool.beq_comm]
    | _ => simp [compare]
  | .missing s, b => by cases b <;> simp [compare]

theorem compareAll_not (up : Bool) :
    ∀ as bs : List Ty, compareAll h (!up) as bs = compareAll h up bs as
  | [], bs => by cases bs <;> simp [compareAll]
  | a :: as, bs => by
    cases bs with
    | nil => simp [compareAll]
    | cons b bs => rw [compareAll, compareAll, compare_not up a b, compareAll_not up as bs]

end

mutual

/-- Comparison is transitive in both directions: parameters are compared the other way round, so
the two are shown at once. -/
theorem compare_trans (up : Bool) :
    ∀ a b c : Ty, compare h up a b → compare h up b c → compare h up a c
  | .int, b, c, hab, hbc
  | .bool, b, c, hab, hbc
  | .null, b, c, hab, hbc => by cases b <;> cases c <;> cases up <;> simp_all [compare]
  | .ref a, b, c, hab, hbc => by
    cases b with
    | ref b =>
      cases c with
      | ref c =>
        cases up with
        | true => exact isSubclass_trans hab hbc
        | false => exact isSubclass_trans hbc hab
      | _ => simp_all [compare]
    | null => cases c <;> cases up <;> simp_all [compare]
    | _ => simp [compare] at hab
  | .arrow ps r, b, c, hab, hbc => by
    cases b with
    | arrow qs s =>
      cases c with
      | arrow ts t =>
        rw [compare, Bool.and_eq_true] at hab hbc ⊢
        exact ⟨compare_trans up r s t hab.1 hbc.1, compareAll_trans (!up) ps qs ts hab.2 hbc.2⟩
      | _ => simp [compare] at hbc
    | _ => simp [compare] at hab
  | .cls o fs ms, b, c, hab, hbc => by
    cases b with
    | cls p gs ns => cases c <;> simp_all [compare]
    | _ => simp [compare] at hab
  | .missing s, b, c, hab, hbc => by simp [compare] at hab

theorem compareAll_trans (up : Bool) :
    ∀ as bs cs : List Ty, compareAll h up as bs → compareAll h up bs cs → compareAll h up as cs
  | [], bs, cs, hab, hbc => by cases bs <;> simp_all [compareAll]
  | a :: as, bs, cs, hab, hbc => by
    cases bs with
    | nil => simp [compareAll] at hab
    | cons b bs =>
      cases cs with
      | nil => simp [compareAll] at hbc
      | cons c cs =>
        rw [compareAll, Bool.and_eq_true] at hab hbc ⊢
        exact ⟨compare_trans up a b c hab.1 hbc.1, compareAll_trans up as bs cs hab.2 hbc.2⟩

end

/-- A subtype of a subtype is a subtype. -/
theorem isSubtype_trans {a b c : Ty} (hab : h.isSubtype a b) (hbc : h.isSubtype b c) :
    h.isSubtype a c := compare_trans true a b c hab hbc

mutual

/-- Types without class types that compare both ways are the same.  The direction is turned for the
parameters of functions, so the statement is about both directions at once. -/
theorem compare_antisymm (hacyclic : h.Acyclic) (up : Bool) :
    ∀ a b : Ty, (∀ l ∈ a.leaves, l.isClass = false) → compare h up a b → compare h up b a → a = b
  | .int, b, _, hab, hba | .bool, b, _, hab, hba
  | .null, b, _, hab, hba => by cases b <;> cases up <;> simp_all [compare]
  | .ref a, b, _, hab, hba => by
    cases b with
    | ref b =>
      cases up with
      | true => exact congrArg Ty.ref (isSubclass_antisymm hacyclic hab hba)
      | false => exact congrArg Ty.ref (isSubclass_antisymm hacyclic hba hab)
    | null => cases up <;> simp_all [compare]
    | _ => simp [compare] at hab
  | .arrow ps r, b, hl, hab, hba => by
    cases b with
    | arrow qs s =>
      rw [Ty.leaves, forall_mem_append] at hl
      rw [compare, Bool.and_eq_true] at hab hba
      rw [compare_antisymm hacyclic up r s hl.2 hab.1 hba.1,
        compareAll_antisymm hacyclic (!up) ps qs hl.1 hab.2 hba.2]
    | _ => simp [compare] at hab
  | .cls _ _ _, _, hl, _, _ => by simp [Ty.leaves, Ty.isClass] at hl
  | .missing _, _, _, hab, _ => by simp [compare] at hab

/-- In a hierarchy without cycles, types that are below each other are the same; a function type is
compared in both directions. -/
theorem compareAll_antisymm (hacyclic : h.Acyclic) (up : Bool) :
    ∀ as bs : List Ty, (∀ l ∈ Ty.allLeaves as, l.isClass = false) → compareAll h up as bs →
      compareAll h up bs as → as = bs
  | [], bs, _, hab, _ => by
    cases bs with
    | nil => rfl
    | cons b bs => simp [compareAll] at hab
  | a :: as, bs, hl, hab, hba => by
    cases bs with
    | nil => simp [compareAll] at hab
    | cons b bs =>
      rw [Ty.allLeaves, forall_mem_append] at hl
      rw [compareAll, Bool.and_eq_true] at hab hba
      rw [compare_antisymm hacyclic up a b hl.1 hab.1 hba.1,
        compareAll_antisymm hacyclic up as bs hl.2 hab.2 hba.2]

end

/-- Where no class is above itself, subtypes of each other are the same type. -/
theorem isSubtype_antisymm (hacyclic : h.Acyclic) {a b : Ty}
    (ha : ∀ l ∈ a.leaves, l.isClass = false) (hab : h.isSubtype a b) (hba : h.isSubtype b a) :
    a = b :=
  compare_antisymm hacyclic true a b ha hab hba

/-- A function type is above another one if its result is and its parameters are below. -/
theorem isSubtype_arrow {ps qs : List Ty} {r s : Ty} :
    h.isSubtype (.arrow ps r) (.arrow qs s) ↔
      h.isSubtype r s ∧ List.Forall₂ (fun q p => h.isSubtype q p) qs ps := by
  have hall : ∀ ps qs : List Ty, compareAll h (!true) ps qs ↔
      List.Forall₂ (fun q p => h.isSubtype q p) qs ps := by
    intro ps
    induction ps with
    | nil => intro qs; cases qs <;> simp [compareAll]
    | cons p ps ih =>
      intro qs
      cases qs with
      | nil => simp [compareAll]
      | cons q qs =>
        rw [compareAll, Bool.and_eq_true, ih, compare_not, forall₂_cons]
        rfl
  rw [isSubtype, compare, Bool.and_eq_true, hall]
  rfl

end Hierarchy

end Foolscap
