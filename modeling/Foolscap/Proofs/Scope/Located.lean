import Foolscap.Scope.Resolve

/-!
# Located names

Where among nested scopes a name is found.
-/

namespace Foolscap

/-! ### Look-up -/

namespace Scopes

/-- How many of the nested scopes lie inside the one that has a name, and its entry there. -/
def locate : List (Table Entry) → Text → Option (Nat × Entry)
  | [], _ => none
  | t :: ts, name => match t.get? name with
    | some e => some (0, e)
    | none => (locate ts name).map fun l => (l.1 + 1, l.2)

@[simp] theorem locate_nil (name : Text) : locate [] name = none := rfl

section

variable {t : Table Entry} {ts : List (Table Entry)} {name : Text} {i : Nat} {e : Entry}

theorem locate_cons (h : locate (t :: ts) name = some (i, e)) :
    i = 0 ∧ t.get? name = some e ∨ ∃ j, i = j + 1 ∧ locate ts name = some (j, e) := by
  rw [locate] at h
  split at h
  · next hget =>
    cases h
    exact .inl ⟨rfl, hget⟩
  · obtain ⟨⟨j, e'⟩, hj, heq⟩ := Option.map_eq_some_iff.mp h
    cases heq
    exact .inr ⟨j, rfl, hj⟩

/-- A scope with no names. -/
theorem locate_empty (h : locate ([] :: ts) name = some (i, e)) :
    ∃ j, i = j + 1 ∧ locate ts name = some (j, e) :=
  (locate_cons h).resolve_left nofun

theorem locate_singleton : locate [t] name = some (i, e) ↔ i = 0 ∧ t.get? name = some e := by
  refine ⟨fun h => (locate_cons h).resolve_right nofun, ?_⟩
  rintro ⟨rfl, h⟩
  rw [locate, h]

theorem find?_eq_locate (ts : List (Table Entry)) (name : Text) :
    find? ts name = (locate ts name).map Prod.snd := by
  induction ts with
  | nil => rfl
  | cons t ts ih =>
    rw [find?, locate]
    cases t.get? name with
    | some e => rfl
    | none => simp [ih, Function.comp_def]

theorem find?_eq_some_iff : find? ts name = some e ↔ ∃ i, locate ts name = some (i, e) := by
  rw [find?_eq_locate, Option.map_eq_some_iff]
  exact ⟨fun ⟨⟨i, _⟩, h, he⟩ => ⟨i, he ▸ h⟩, fun ⟨i, h⟩ => ⟨(i, e), h, rfl⟩⟩

theorem lt_length_of_locate (h : locate ts name = some (i, e)) : i < ts.length := by
  induction ts generalizing i with
  | nil => cases h
  | cons t ts ih =>
    obtain ⟨rfl, -⟩ | ⟨j, rfl, hj⟩ := locate_cons h
    · exact Nat.succ_pos _
    · exact Nat.succ_lt_succ (ih hj)

/-- Installing a name in the innermost scope leaves the other names alone. -/
theorem locate_put {other : Text} {e' : Entry}
    (h : locate (t.put name e :: ts) other = some (i, e')) :
    other = name ∧ i = 0 ∧ e' = e ∨ other ≠ name ∧ locate (t :: ts) other = some (i, e') := by
  by_cases hname : other = name
  · rw [locate, hname, Table.get?_put_self] at h
    cases h
    exact .inl ⟨hname, rfl, rfl⟩
  · rw [locate, Table.get?_put_of_ne _ _ hname] at h
    exact .inr ⟨hname, h⟩

end

variable {s : Scopes} {e : Entry} {receiver method : Text}

/-- A name that denotes a class is found in the scopes. -/
theorem of_class? {name : Text} (h : s.class? name = some e) :
    s.entry? name = some e ∧ e.kind = .cls := by
  rw [class?] at h
  split at h
  · next he =>
    split at h
    · next hkind =>
      cases h
      exact ⟨he, of_decide_eq_true (Bool.and_eq_true_iff.mp hkind).1⟩
    · cases h
  · cases h

/-- The class of a receiver is unknown only if its written type is missing. -/
theorem receive_shapeless {u : Use} (h : s.receive receiver method = .shapeless u) :
    s.use? receiver = some u ∧ u.entry.ty = .missing (some .ref) := by
  unfold receive at h
  cases hu : s.use? receiver with
  | none => simp [hu] at h
  | some v =>
    rw [hu] at h
    dsimp only at h
    split at h
    · next hmissing =>
      cases h
      exact ⟨rfl, hmissing⟩
    · split at h
      · cases h
      · split at h
        · split at h <;> cases h
        · cases h
    · cases h

/-- What the receiver and the method of a method call denote, where both denote something. -/
theorem receive_target (he : (s.receive receiver method).target? = some e) :
    ∃ u cls info, s.use? receiver = some u ∧ (s.receive receiver method).use? = some u ∧
      u.entry.ty = .ref cls ∧ s.context.classes.get? cls = some info ∧
      info.members.get? method = some e ∧ e.kind = .method := by
  unfold receive at he ⊢
  cases hu : s.use? receiver with
  | none => simp [hu, Reception.target?] at he
  | some u =>
    simp only [hu] at he ⊢
    split at he
    · simp [Reception.target?] at he
    · next cls hty =>
      cases hinfo : s.context.classes.get? cls with
      | none => simp [hinfo, Reception.target?] at he
      | some info =>
        simp only [hinfo] at he
        cases hmem : info.members.get? method with
        | none => simp [hmem, Reception.target?] at he
        | some e' =>
          simp only [hmem] at he
          split at he
          · next hk =>
            obtain rfl : e' = e := by simpa [Reception.target?] using he
            exact ⟨u, cls, info, rfl, by simp [hmem, hk, Reception.use?], hty, hinfo, hmem, hk⟩
          · simp [Reception.target?] at he
    · simp [Reception.target?] at he

end Scopes

/-- Scopes as they are wherever a walk without errors gets to, given the context it ends with.
Entries know how deep they are nested and have all of their types, classes are those of the final
context, and so are the classes known so far. -/
structure Site (final : Context) (s : Scopes) : Prop where
  leveled : ∀ name i e, Scopes.locate s.tables name = some (i, e) →
    e.level = (s.tables.length : Int) - 1 - i
  complete : ∀ name i e, Scopes.locate s.tables name = some (i, e) → e.ty.isComplete
  classes : ∀ name i e, Scopes.locate s.tables name = some (i, e) → e.kind = .cls →
    ∃ info, final.classes.get? name = some info ∧ info.entry = e
  context : ∀ name info, s.context.classes.get? name = some info →
    final.classes.get? name = some info

namespace Site

variable {final : Context} {s : Scopes} {name : Text} {e : Entry}

/-- Access links lead to the scope in which a name is found. -/
theorem hops_eq (h : Site final s) {i : Nat} (hl : Scopes.locate s.tables name = some (i, e)) :
    (Use.mk e s.level).hops = i := by
  have hlevel := h.leveled name i e hl
  have hlt := Scopes.lt_length_of_locate hl
  simp only [Use.hops, Scopes.level, hlevel]
  omega

/-- A use denotes the entry that is located. -/
theorem use?_eq_some (h : Site final s) {u : Use} (hu : s.use? name = some u) :
    Scopes.locate s.tables name = some (u.hops, u.entry) := by
  rw [Scopes.use?, Option.map_eq_some_iff] at hu
  obtain ⟨e, he, rfl⟩ := hu
  obtain ⟨i, hi⟩ := Scopes.find?_eq_some_iff.mp he
  rw [hi, h.hops_eq hi]

/-- Entering a scope with no names. -/
theorem enter (h : Site final s) : Site final { s with tables := [] :: s.tables } := by
  refine ⟨?_, ?_, ?_, h.context⟩
  · intro name i e hl
    obtain ⟨j, rfl, hj⟩ := Scopes.locate_empty hl
    rw [h.leveled name j e hj]
    simp only [List.length_cons]
    omega
  · intro name i e hl
    obtain ⟨j, -, hj⟩ := Scopes.locate_empty hl
    exact h.complete name j e hj
  · intro name i e hl
    obtain ⟨j, -, hj⟩ := Scopes.locate_empty hl
    exact h.classes name j e hj

/-- Installing a name that is no class in the innermost scope. -/
theorem put {t : Table Entry} {ts : List (Table Entry)} (h : Site final s)
    (hts : s.tables = t :: ts) (name : Text) (hlevel : e.level = s.level) (hty : e.ty.isComplete)
    (hkind : e.kind ≠ .cls) : Site final { s with tables := t.put name e :: ts } := by
  have hlen : s.level = ts.length := by simp [Scopes.level, hts]
  refine ⟨?_, ?_, ?_, h.context⟩
  · intro other i e' hl
    obtain ⟨-, rfl, rfl⟩ | ⟨-, hl⟩ := Scopes.locate_put hl
    · simp [hlevel, hlen]
    · simpa [hts] using h.leveled other i e' (hts ▸ hl)
  · intro other i e' hl
    obtain ⟨-, -, rfl⟩ | ⟨-, hl⟩ := Scopes.locate_put hl
    · exact hty
    · exact h.complete other i e' (hts ▸ hl)
  · intro other i e' hl hk
    obtain ⟨-, -, rfl⟩ | ⟨-, hl⟩ := Scopes.locate_put hl
    · exact absurd hk hkind
    · exact h.classes other i e' (hts ▸ hl) hk

end Site

end Foolscap
