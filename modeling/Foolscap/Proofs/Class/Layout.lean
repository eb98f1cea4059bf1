import Foolscap.Scope.Resolve

/-!
# Class layouts

Laying out a class gives every field and every method a place of its own, without gaps, and leaves
inherited members where they are.  This holds of every class that is written down, also where
members clash: a member that is rejected takes no place.

Fields and methods are laid out by the same rule, so the rule is stated once, for a member of any
kind, and the invariants are derived from it.
-/

namespace Foolscap

open List Foolscap.Frame

/-! ### Tables -/

namespace Table

variable {α : Type} {t : Table α} {name : Text} {a b : α}

/-- What is found in a table after installing a value. -/
theorem get?_put_eq_some {other : Text} :
    (t.put name a).get? other = some b ↔
      other = name ∧ b = a ∨ other ≠ name ∧ t.get? other = some b := by
  by_cases h : other = name
  · subst h
    simp [eq_comm]
  · simp [get?_put_of_ne _ _ h, h]

/-- A new name goes to the end. -/
theorem put_of_none (h : t.get? name = none) (a : α) : t.put name a = t ++ [(name, a)] := by
  induction t with
  | nil => rfl
  | cons row t ih =>
    obtain ⟨n, b⟩ := row
    rw [get?_cons] at h
    split at h
    · cases h
    · next hn => rw [put_cons, if_neg hn, ih h, cons_append]

theorem forall_put {P : Text → α → Prop} (h : ∀ other b, t.get? other = some b → P other b)
    (ha : P name a) : ∀ other b, (t.put name a).get? other = some b → P other b := by
  intro other b hb
  obtain ⟨rfl, rfl⟩ | ⟨-, hget⟩ := get?_put_eq_some.mp hb
  · exact ha
  · exact h other b hget

theorem length_put_of_some (h : t.get? name = some b) (a : α) :
    (t.put name a).length = t.length := by
  induction t with
  | nil => cases h
  | cons row t ih =>
    obtain ⟨n, c⟩ := row
    rw [get?_cons] at h
    by_cases hn : n = name
    · rw [put_cons, if_pos hn, length_cons, length_cons]
    · rw [if_neg hn] at h
      rw [put_cons, if_neg hn, length_cons, ih h, length_cons]

end Table

/-- Appending keeps what stands at a position. -/
theorem getElem?_append_of_some {α : Type} {xs : List α} {i : Nat} {a : α}
    (h : xs[i]? = some a) (ys : List α) : (xs ++ ys)[i]? = some a := by
  rw [List.getElem?_append_left (List.getElem?_eq_some_iff.mp h).1, h]

/-! ### Places -/

/-- Where the member of a kind at a position lies. -/
def Frame.place : EntryKind → Nat → Int
  | .field, position => Frame.fieldOffset position
  | _, position => Frame.methodOffset position

theorem Frame.place_injective (kind : EntryKind) : Function.Injective (place kind) := by
  intro i j h
  cases kind <;> simp only [place, fieldOffset, methodOffset] at h <;> omega

/-- The position of a field is told from where it lies. -/
theorem Frame.fieldPosition_of_place {offset : Int} {i : Nat} (h : offset = place .field i) :
    fieldPosition offset = i := by
  rw [h, place, fieldPosition, fieldOffset]
  omega

namespace Layout

/-- The types of the members of a kind, by position. -/
def types (l : Layout) : EntryKind → List Ty
  | .field => l.fields
  | .method => l.methods
  | _ => []

/-! ### One member -/

/-- What laying out a member does.  The entry of the member is given up to its offset. -/
inductive Adds (l : Layout) (name : Text) (e : Entry) (p : Placed) : Prop where
  /-- The class has declared the name before. -/
  | redeclared (declared : name ∈ l.declared) (layout : p.layout = l)
      (outside : p.outside = false) (error : p.error ≠ none) : Adds l name e p
  /-- The inherited member of that name is of another kind. -/
  | clash {e₀ : Entry} (new : name ∉ l.declared)
      (inherited : l.members.get? name = some e₀) (kind : e₀.kind ≠ e.kind)
      (layout : p.layout = { l with declared := name :: l.declared })
      (outside : p.outside = false) (error : p.error ≠ none) : Adds l name e p
  /-- The member is new and comes last of its kind. -/
  | fresh (new : name ∉ l.declared) (unknown : l.members.get? name = none)
      (members : p.layout.members = l.members.put name { e with offset := p.offset })
      (declared : p.layout.declared = name :: l.declared)
      (own : p.layout.types e.kind = l.types e.kind ++ [e.ty])
      (others : ∀ kind, kind ≠ e.kind → p.layout.types kind = l.types kind)
      (outside : p.outside = false)
      (offset : p.offset = Frame.place e.kind (l.types e.kind).length) : Adds l name e p
  /-- The member is inherited and keeps its place. -/
  | override {e₀ : Entry} (position : Nat) (new : name ∉ l.declared)
      (inherited : l.members.get? name = some e₀) (kind : e₀.kind = e.kind)
      (place : ∀ i, e₀.offset = Frame.place e.kind i → position = i)
      (members : p.layout.members = l.members.put name { e with offset := p.offset })
      (declared : p.layout.declared = name :: l.declared)
      (own : p.layout.types e.kind = (l.types e.kind).set position e.ty)
      (others : ∀ kind, kind ≠ e.kind → p.layout.types kind = l.types kind)
      (outside : ∀ i, e₀.offset = Frame.place e.kind i →
        (p.outside ↔ (l.types e.kind).length ≤ i))
      (offset : p.offset = e₀.offset) : Adds l name e p

end Layout

/-- The entry of a field of a class, up to its offset. -/
def Field.member (f : Field) (level : Nat) : Entry :=
  ⟨level, f.annotation.ty, 0, .field, f.span⟩

/-- The entry of a method of a class, up to its offset. -/
def Routine.member (r : Routine) (level : Nat) : Entry :=
  ⟨level, r.signature, 0, .method, r.span⟩

/-- The members that a class declares itself, in order. -/
def ClassDecl.members (c : ClassDecl) (level : Nat) : List (Text × Entry) :=
  c.fields.map (fun f => (f.name, f.member level)) ++
    c.methods.map fun m => (m.routine.name, m.routine.member level)

namespace Layout

/-- A field is laid out by the rule.  Places of fields count down, so an index is found from a
place by a sign and a shift. -/
theorem addField_adds (l : Layout) (cls : Text) (level : Nat) (f : Field) :
    l.Adds f.name (f.member level) (l.addField cls level f) := by
  have hothers : ∀ (fields : List Ty) (members : Table Entry) (declared : List Text) kind,
      kind ≠ EntryKind.field →
        types ⟨fields, l.methods, members, declared⟩ kind = l.types kind := by
    intro fields members declared kind hkind
    cases kind <;> first | rfl | exact absurd rfl hkind
  unfold addField
  split
  · next hd => exact .redeclared hd rfl rfl nofun
  · next hd =>
    dsimp only
    cases hget : l.members.get? f.name with
    | none => exact .fresh hd hget rfl rfl rfl (hothers _ _ _) rfl rfl
    | some e₀ =>
      dsimp only
      split
      · next hkind =>
        refine .override (fieldPosition e₀.offset).toNat hd hget hkind (fun i hi => ?_) rfl rfl rfl
          (hothers _ _ _) (fun i hi => ?_) rfl
        · rw [fieldPosition_of_place hi, Int.toNat_natCast]
        · simp [fieldPosition_of_place hi, types, Field.member,
            Int.not_lt.mpr (Int.natCast_nonneg i)]
      · next hkind => exact .clash hd hget hkind rfl rfl nofun

/-- A method is laid out by the same rule; its place is its index. -/
theorem addMethod_adds (l : Layout) (cls : Text) (level : Nat) (r : Routine) (offset : Int) :
    l.Adds r.name (r.member level) (l.addMethod cls level r offset) := by
  have hothers : ∀ (methods : List Ty) (members : Table Entry) (declared : List Text) kind,
      kind ≠ EntryKind.method →
        types ⟨l.fields, methods, members, declared⟩ kind = l.types kind := by
    intro methods members declared kind hkind
    cases kind <;> first | rfl | exact absurd rfl hkind
  unfold addMethod
  split
  · next hd => exact .redeclared hd rfl rfl nofun
  · next hd =>
    dsimp only
    cases hget : l.members.get? r.name with
    | none => exact .fresh hd hget rfl rfl rfl (hothers _ _ _) rfl rfl
    | some e₀ =>
      dsimp only
      split
      · next hkind =>
        refine .override e₀.offset.toNat hd hget hkind (fun i hi => ?_) rfl rfl rfl (hothers _ _ _)
          (fun i hi => ?_) rfl
        · rw [show e₀.offset = i from hi, Int.toNat_natCast]
        · simp [show e₀.offset = i from hi, types, Routine.member,
            Int.not_lt.mpr (Int.natCast_nonneg i)]
      · next hkind => exact .clash hd hget hkind rfl rfl nofun

namespace Adds

variable {l : Layout} {name : Text} {e : Entry} {p : Placed} (h : l.Adds name e p)

include h

/-- A member without errors is new to the class and gets an entry. -/
theorem accepted (herror : p.error = none) :
    name ∉ l.declared ∧ p.layout.declared = name :: l.declared ∧
      p.layout.members = l.members.put name { e with offset := p.offset } := by
  cases h with
  | redeclared _ _ _ h | clash _ _ _ _ _ h => exact absurd herror h
  | fresh hnew _ hmembers hdeclared
  | override _ hnew _ _ _ hmembers hdeclared => exact ⟨hnew, hdeclared, hmembers⟩

/-- A member is rejected, or it gets an entry. -/
theorem members_cases : p.layout.members = l.members ∨
    p.layout.members = l.members.put name { e with offset := p.offset } := by
  cases h with
  | redeclared _ hlayout | clash _ _ _ hlayout => exact .inl (by rw [hlayout])
  | fresh _ _ hmembers | override _ _ _ _ _ hmembers => exact .inr hmembers

variable {other : Text}

theorem get?_of_ne (hne : other ≠ name) : p.layout.members.get? other = l.members.get? other := by
  rcases h.members_cases with heq | heq
  · rw [heq]
  · rw [heq, Table.get?_put_of_ne _ _ hne]

/-- Members of other kinds stay. -/
theorem get?_of_kind_ne {e' : Entry} (hk : e'.kind ≠ e.kind) :
    p.layout.members.get? other = some e' ↔ l.members.get? other = some e' := by
  by_cases hname : other = name
  · subst hname
    have hnot : ∀ e₁ : Entry, e₁.kind = e.kind → some e₁ ≠ some e' := by
      rintro e₁ hk₁ heq
      exact hk (Option.some.inj heq ▸ hk₁)
    cases h with
    | redeclared _ hlayout | clash _ _ _ hlayout => rw [hlayout]
    | fresh _ hunknown hmembers =>
      rw [hmembers, Table.get?_put_self, hunknown]
      exact iff_of_false (hnot _ rfl) nofun
    | override _ _ hold hkind _ hmembers =>
      rw [hmembers, Table.get?_put_self, hold]
      exact iff_of_false (hnot _ rfl) (hnot _ hkind)
  · rw [h.get?_of_ne hname]

/-- The types of a kind stay, or one comes last, or one is replaced. -/
theorem types_cases (kind : EntryKind) :
    p.layout.types kind = l.types kind ∨ kind = e.kind ∧
      (p.layout.types kind = l.types kind ++ [e.ty] ∨
        ∃ i, p.layout.types kind = (l.types kind).set i e.ty) := by
  cases h with
  | redeclared _ hlayout => exact .inl (by rw [hlayout])
  | clash _ _ _ hlayout =>
    left
    rw [hlayout]
    cases kind <;> rfl
  | fresh _ _ _ _ hown hothers =>
    by_cases hk : kind = e.kind
    · exact .inr ⟨hk, .inl (hk ▸ hown)⟩
    · exact .inl (hothers kind hk)
  | override i _ _ _ _ _ _ hown hothers =>
    by_cases hk : kind = e.kind
    · exact .inr ⟨hk, .inr ⟨i, hk ▸ hown⟩⟩
    · exact .inl (hothers kind hk)

end Adds

/-! ### All members -/

/-- What laying out some members, one after the other, does. -/
inductive AddsAll : Layout → List (Text × Entry) → Layout → Prop where
  | nil (l : Layout) : AddsAll l [] l
  | cons {l l' : Layout} {name : Text} {e : Entry} {ms : List (Text × Entry)} {p : Placed}
      (head : l.Adds name e p) (tail : AddsAll p.layout ms l') : AddsAll l ((name, e) :: ms) l'

namespace AddsAll

variable {l l' l'' : Layout} {ms ms' : List (Text × Entry)} (h : AddsAll l ms l')

include h

theorem append (h' : AddsAll l' ms' l'') : AddsAll l (ms ++ ms') l'' := by
  induction h with
  | nil => exact h'
  | cons head _ ih => exact .cons head (ih h')

/-- What holds of inherited members and of those that are declared holds of all. -/
theorem forall_members {P : Text → Entry → Prop}
    (hl : ∀ name e, l.members.get? name = some e → P name e)
    (hms : ∀ m ∈ ms, ∀ offset, P m.1 { m.2 with offset }) :
    ∀ name e, l'.members.get? name = some e → P name e := by
  induction h with
  | nil => exact hl
  | cons head _ ih =>
    obtain ⟨hm, hms⟩ := forall_mem_cons.mp hms
    refine ih ?_ hms
    rcases head.members_cases with heq | heq
    · rwa [heq]
    · rw [heq]
      exact Table.forall_put hl (hm _)

theorem get?_of_ne {name : Text} (hne : ∀ m ∈ ms, name ≠ m.1) :
    l'.members.get? name = l.members.get? name := by
  induction h with
  | nil => rfl
  | cons head _ ih =>
    obtain ⟨hm, hne⟩ := forall_mem_cons.mp hne
    exact (ih hne).trans (head.get?_of_ne hm)

/-- Members of other kinds do not matter. -/
theorem types_of_ne {kind : EntryKind} (hms : ∀ m ∈ ms, kind ≠ m.2.kind) :
    l'.types kind = l.types kind := by
  induction h with
  | nil => rfl
  | cons head _ ih =>
    obtain ⟨hm, hms⟩ := forall_mem_cons.mp hms
    exact (ih hms).trans ((head.types_cases kind).resolve_right fun h => hm h.1)

/-- A class has no more members of a kind than it inherits and declares. -/
theorem length_le (kind : EntryKind) :
    (l'.types kind).length ≤ (l.types kind).length + ms.length := by
  induction h with
  | nil => exact Nat.le_refl _
  | cons head _ ih =>
    rw [length_cons]
    rcases head.types_cases kind with heq | ⟨-, heq | ⟨i, heq⟩⟩
    · rw [heq] at ih
      omega
    · rw [heq, length_append, length_singleton] at ih
      omega
    · rw [heq, length_set] at ih
      omega

end AddsAll

end Layout

namespace Resolver

theorem fields_addsAll (r : Resolver) (cls : Text) (level : Nat) (l : Layout) (fs : List Field) :
    l.AddsAll (fs.map fun f => (f.name, f.member level)) (r.fields cls level l fs).2.1 := by
  induction fs generalizing r l with
  | nil => exact .nil l
  | cons f fs ih => exact .cons (l.addField_adds cls level f) (ih _ _)

theorem methods_addsAll (r : Resolver) (cls : Text) (level : Nat) (l : Layout) (ms : List Method) :
    l.AddsAll (ms.map fun m => (m.routine.name, m.routine.member level))
      (r.methods cls level l ms).2.1 := by
  induction ms generalizing r l with
  | nil => exact .nil l
  | cons m ms ih => exact .cons (l.addMethod_adds cls level m.routine m.offset) (ih _ _)

end Resolver

namespace Layout

/-! ### Sound layouts -/

/-- The members of a kind fill the places of that kind. -/
structure Fills (kind : EntryKind) (types : List Ty) (members : Table Entry) : Prop where
  /-- Each of them lies at a position that has its type. -/
  placed : ∀ name e, members.get? name = some e → e.kind = kind →
    ∃ i, e.offset = Frame.place kind i ∧ types[i]? = some e.ty
  /-- There is one at each position. -/
  filled : ∀ i < types.length, ∃ name e, members.get? name = some e ∧ e.kind = kind ∧
    e.offset = Frame.place kind i
  /-- No two of them lie at one place. -/
  apart : ∀ name name' e e', members.get? name = some e → members.get? name' = some e' →
    e.kind = kind → e'.kind = kind → e.offset = e'.offset → name = name'

namespace Fills

variable {kind : EntryKind} {types : List Ty} {members : Table Entry} {name : Text} {e : Entry}
  (h : Fills kind types members)

include h

/-- Members whose place no other one has stay apart when they are installed. -/
theorem apart_put (hplace : ∀ other e', members.get? other = some e' → e'.kind = kind →
      e'.offset = e.offset → other = name) :
    ∀ name₁ name₂ e₁ e₂, (members.put name e).get? name₁ = some e₁ →
      (members.put name e).get? name₂ = some e₂ → e₁.kind = kind → e₂.kind = kind →
      e₁.offset = e₂.offset → name₁ = name₂ := by
  intro name₁ name₂ e₁ e₂ he₁ he₂ hk₁ hk₂ hoff
  obtain ⟨rfl, rfl⟩ | ⟨-, hget₁⟩ := Table.get?_put_eq_some.mp he₁
  · obtain ⟨rfl, rfl⟩ | ⟨-, hget₂⟩ := Table.get?_put_eq_some.mp he₂
    · rfl
    · exact (hplace _ _ hget₂ hk₂ hoff.symm).symm
  · obtain ⟨rfl, rfl⟩ | ⟨-, hget₂⟩ := Table.get?_put_eq_some.mp he₂
    · exact hplace _ _ hget₁ hk₁ hoff
    · exact h.apart _ _ _ _ hget₁ hget₂ hk₁ hk₂ hoff

/-- A new member comes last. -/
theorem add (hnew : members.get? name = none) (hkind : e.kind = kind)
    (hoffset : e.offset = place kind types.length) :
    Fills kind (types ++ [e.ty]) (members.put name e) := by
  have hne : ∀ other e', members.get? other = some e' → other ≠ name := by
    rintro other e' he' rfl
    rw [hnew] at he'
    cases he'
  constructor
  · intro other e' he' hk'
    obtain ⟨rfl, rfl⟩ | ⟨-, he'⟩ := Table.get?_put_eq_some.mp he'
    · exact ⟨types.length, hoffset, by simp⟩
    · obtain ⟨i, hi, ht⟩ := h.placed other e' he' hk'
      exact ⟨i, hi, getElem?_append_of_some ht _⟩
  · intro i hi
    rw [length_append, length_singleton] at hi
    by_cases hlast : i = types.length
    · exact ⟨name, e, Table.get?_put_self _ _ _, hkind, hlast ▸ hoffset⟩
    · obtain ⟨other, e', he', hk', hoff'⟩ := h.filled i (by omega)
      exact ⟨other, e', (Table.get?_put_of_ne _ _ (hne _ _ he')).trans he', hk', hoff'⟩
  · refine h.apart_put fun other e' he' hk' hoff' => ?_
    -- The last place is not among those that are filled.
    obtain ⟨i, hi, ht⟩ := h.placed other e' he' hk'
    have hlast : i = types.length := by
      apply place_injective kind
      rw [← hi, hoff', hoffset]
    have hlt := (List.getElem?_eq_some_iff.mp ht).1
    omega

/-- An inherited member keeps its place. -/
theorem replace {e₀ : Entry} {position : Nat} (hold : members.get? name = some e₀)
    (hkind₀ : e₀.kind = kind) (hkind : e.kind = kind) (hoffset : e.offset = e₀.offset)
    (hposition : ∀ i, e₀.offset = place kind i → position = i) :
    position < types.length ∧ Fills kind (types.set position e.ty) (members.put name e) := by
  obtain ⟨i, hi, ht⟩ := h.placed name e₀ hold hkind₀
  obtain rfl := hposition i hi
  have hlt := (List.getElem?_eq_some_iff.mp ht).1
  refine ⟨hlt, ?_, ?_, ?_⟩
  · intro other e' he' hk'
    obtain ⟨rfl, rfl⟩ | ⟨hne, he'⟩ := Table.get?_put_eq_some.mp he'
    · exact ⟨position, hoffset.trans hi, List.getElem?_set_self hlt⟩
    · obtain ⟨j, hj, ht'⟩ := h.placed other e' he' hk'
      have hij : position ≠ j := by
        rintro rfl
        exact hne (h.apart _ _ _ _ he' hold hk' hkind₀ (hj.trans hi.symm))
      exact ⟨j, hj, by rwa [List.getElem?_set_ne hij]⟩
  · intro j hj
    obtain ⟨other, e', he', hk', hoff'⟩ := h.filled j (by simpa using hj)
    by_cases heq : other = name
    · subst heq
      rw [hold] at he'
      cases he'
      exact ⟨other, e, Table.get?_put_self _ _ _, hkind, hoffset.trans hoff'⟩
    · exact ⟨other, e', (Table.get?_put_of_ne _ _ heq).trans he', hk', hoff'⟩
  · exact h.apart_put fun other e' he' hk' hoff' =>
      h.apart _ _ _ _ he' hold hk' hkind₀ (hoff'.trans hoffset)

/-- Members of other kinds do not matter. -/
theorem congr {members' : Table Entry}
    (heq : ∀ name e, e.kind = kind → (members'.get? name = some e ↔ members.get? name = some e)) :
    Fills kind types members' := by
  constructor
  · exact fun name e he hk => h.placed name e ((heq name e hk).mp he) hk
  · intro i hi
    obtain ⟨name, e, he, hk, hoffset⟩ := h.filled i hi
    exact ⟨name, e, (heq name e hk).mpr he, hk, hoffset⟩
  · exact fun _ _ _ _ he he' hk hk' =>
      h.apart _ _ _ _ ((heq _ _ hk).mp he) ((heq _ _ hk').mp he') hk hk'

end Fills

/-- Every member has a place of its own and every place a member. -/
structure Sound (l : Layout) : Prop where
  nodup : l.members.names.Nodup
  fills : ∀ kind, Fills kind (l.types kind) l.members

namespace Sound

variable {l l' : Layout} {name : Text} {e : Entry} {p : Placed}

theorem empty : Sound {} where
  nodup := nodup_nil
  fills kind := by
    constructor
    · intro _ _ he
      cases he
    · intro i hi
      cases kind <;> exact absurd hi (Nat.not_lt_zero i)
    · intro _ _ _ _ he
      cases he

/-- A sound layout has fields and methods only. -/
theorem kind (h : l.Sound) (he : l.members.get? name = some e) :
    e.kind = .field ∨ e.kind = .method := by
  obtain ⟨i, -, hi⟩ := (h.fills e.kind).placed name e he rfl
  cases hk : e.kind with
  | field => exact .inl rfl
  | method => exact .inr rfl
  | _ => rw [hk] at hi; cases hi

theorem type_eq (h : l.Sound) {kind : EntryKind} {i : Nat} (he : l.members.get? name = some e)
    (hk : e.kind = kind) (hoff : e.offset = place kind i) : (l.types kind)[i]? = some e.ty := by
  obtain ⟨j, hj, ht⟩ := (h.fills kind).placed name e he hk
  obtain rfl := place_injective kind (hoff.symm.trans hj)
  exact ht

/-- The types of a class are those of its members. -/
theorem forall_types (h : l.Sound) {P : EntryKind → Ty → Prop}
    (hP : ∀ name e, l.members.get? name = some e → P e.kind e.ty) (kind : EntryKind) :
    ∀ t ∈ l.types kind, P kind t := by
  intro t ht
  obtain ⟨i, hi, rfl⟩ := getElem_of_mem ht
  obtain ⟨name, e, he, rfl, hoffset⟩ := (h.fills kind).filled i hi
  have htype := h.type_eq he rfl hoffset
  rw [List.getElem?_eq_getElem hi, Option.some.injEq] at htype
  rw [htype]
  exact hP name e he

/-- A layout stays sound whatever comes of a member, and inherited members are found where they
should be. -/
theorem adds (h : l.Sound) (hp : l.Adds name e p) : p.layout.Sound ∧ p.outside = false := by
  have hother : ∀ kind, kind ≠ e.kind → Fills kind (l.types kind) p.layout.members :=
    fun kind hk => (h.fills kind).congr fun _ _ hk' => hp.get?_of_kind_ne (hk' ▸ hk)
  cases hp with
  | redeclared _ hlayout hout => exact ⟨hlayout ▸ h, hout⟩
  | clash _ _ _ hlayout hout =>
    refine ⟨?_, hout⟩
    rw [hlayout]
    exact ⟨h.nodup, fun kind => by cases kind <;> exact h.fills _⟩
  | fresh _ hunknown hmembers _ hown hothers hout hoffset =>
    refine ⟨⟨?_, fun kind => ?_⟩, hout⟩
    · rw [hmembers]
      exact Table.names_put_nodup h.nodup _ _
    · by_cases hk : kind = e.kind
      · subst hk
        rw [hmembers, hown]
        exact (h.fills e.kind).add (e := { e with offset := p.offset }) hunknown rfl hoffset
      · rw [hothers kind hk]
        exact hother kind hk
  | @override e₀ position _ hold hkind hplace hmembers _ hown hothers hout hoffset =>
    obtain ⟨hlt, hfills⟩ := (h.fills e.kind).replace (e := { e with offset := p.offset })
      hold hkind rfl hoffset hplace
    obtain ⟨i, hi, -⟩ := (h.fills e.kind).placed name e₀ hold hkind
    refine ⟨⟨?_, fun kind => ?_⟩, ?_⟩
    · rw [hmembers]
      exact Table.names_put_nodup h.nodup _ _
    · by_cases hk : kind = e.kind
      · subst hk
        rw [hmembers, hown]
        exact hfills
      · rw [hothers kind hk]
        exact hother kind hk
    · rw [← Bool.not_eq_true, hout i hi, ← hplace i hi]
      exact Nat.not_le.mpr hlt

theorem addsAll {ms : List (Text × Entry)} (h : l.Sound) (hms : l.AddsAll ms l') : l'.Sound := by
  induction hms with
  | nil => exact h
  | cons head _ ih => exact ih (h.adds head).1

end Sound

/-! ### Extended layouts -/

/-- A layout extends another one: members keep their places, and positions stay in use. -/
structure Keeps (l l' : Layout) : Prop where
  member : ∀ name e, l.members.get? name = some e →
    ∃ e', l'.members.get? name = some e' ∧ e'.offset = e.offset ∧ e'.kind = e.kind
  length : ∀ kind, (l.types kind).length ≤ (l'.types kind).length

namespace Keeps

variable {l l' l'' : Layout}

theorem refl (l : Layout) : l.Keeps l := ⟨fun _ e he => ⟨e, he, rfl, rfl⟩, fun _ => Nat.le_refl _⟩

theorem trans (h : l.Keeps l') (h' : l'.Keeps l'') : l.Keeps l'' := by
  refine ⟨fun name e he => ?_, fun kind => Nat.le_trans (h.length kind) (h'.length kind)⟩
  obtain ⟨e', he', hoff', hk'⟩ := h.member name e he
  obtain ⟨e'', he'', hoff'', hk''⟩ := h'.member name e' he'
  exact ⟨e'', he'', hoff''.trans hoff', hk''.trans hk'⟩

end Keeps

variable {l l' : Layout} {ms : List (Text × Entry)}

/-- Whatever is added, a layout keeps the members that it had, with the places and kinds that they
had. -/
theorem Adds.keeps {name : Text} {e : Entry} {p : Placed} (h : l.Adds name e p) :
    l.Keeps p.layout := by
  refine ⟨fun other e' he' => ?_, fun kind => ?_⟩
  · by_cases hname : other = name
    · subst hname
      cases h with
      | redeclared _ hlayout | clash _ _ _ hlayout => exact ⟨e', by rw [hlayout, he'], rfl, rfl⟩
      | fresh _ hunknown =>
        rw [hunknown] at he'
        cases he'
      | override _ _ hold hkind _ hmembers _ _ _ _ hoffset =>
        obtain rfl := Option.some.inj (hold.symm.trans he')
        exact ⟨{ e with offset := p.offset }, by rw [hmembers, Table.get?_put_self], hoffset,
          hkind.symm⟩
    · exact ⟨e', (h.get?_of_ne hname).trans he', rfl, rfl⟩
  · rcases h.types_cases kind with heq | ⟨-, heq | ⟨i, heq⟩⟩ <;> simp [heq]

theorem AddsAll.keeps (h : l.AddsAll ms l') : l.Keeps l' := by
  induction h with
  | nil l => exact .refl l
  | cons head _ ih => exact head.keeps.trans ih

/-- A position at which no member is declared keeps its type. -/
theorem AddsAll.type_kept (h : l.AddsAll ms l') (hl : l.Sound) {kind : EntryKind} {i : Nat}
    (hi : i < (l.types kind).length)
    (hnot : ∀ m ∈ ms, ∀ e, l'.members.get? m.1 = some e → e.kind = kind →
      e.offset ≠ place kind i) : (l'.types kind)[i]? = (l.types kind)[i]? := by
  obtain ⟨name, e, he, hk, hoffset⟩ := (hl.fills kind).filled i hi
  obtain ⟨e', he', hoffset', hk'⟩ := h.keeps.member name e he
  have hne : ∀ m ∈ ms, name ≠ m.1 := by
    rintro m hm rfl
    exact hnot m hm e' he' (hk'.trans hk) (hoffset'.trans hoffset)
  obtain rfl := Option.some.inj (he'.symm.trans ((h.get?_of_ne hne).trans he))
  rw [(hl.addsAll h).type_eq he' hk hoffset, hl.type_eq he hk hoffset]

end Layout

end Foolscap
