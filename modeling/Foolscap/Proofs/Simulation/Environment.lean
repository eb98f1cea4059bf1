import Foolscap.Proofs.Simulation.World

/-!
# Environments in memory

How the names that an environment knows are found by following access links from the current frame.

## Design Notes

Frames are told by their addresses, the innermost first; each holds the address of the next one as
access link.  The frame of the members of a class is the object itself.  An entry that lies some
scopes away is looked for in the frames without those of the scopes in between, so that what is said
of it does not change when a scope is entered.

Functions are no values, so a function is only ever called while the frame that it was declared in
is still on the stack.  That is why everything here is kept when the stack grows.
-/

namespace Foolscap

open List

namespace Table

variable {α : Type}

/-- A name is looked for in the first of two tables, then in the second. -/
theorem get?_append (t t' : Table α) (name : Text) :
    get? (t ++ t') name = (get? t name).or (get? t' name) := by
  induction t with
  | nil => rfl
  | cons row t ih =>
    obtain ⟨n, a⟩ := row
    rw [cons_append, get?_cons, get?_cons, ih]
    split <;> rfl

variable {names : List Text} {name : Text}

/-- A name among distinct ones stands for the value at its position. -/
theorem get?_zip {as : List α} (hn : names.Nodup) {i : Nat} {a : α} (hi : names[i]? = some name)
    (ha : as[i]? = some a) : get? (names.zip as) name = some a := by
  induction names generalizing as i with
  | nil => simp at hi
  | cons n names ih =>
    cases as with
    | nil => simp at ha
    | cons b as =>
      rw [zip_cons_cons, get?_cons]
      cases i with
      | zero =>
        obtain rfl : n = name := by simpa using hi
        simpa using ha
      | succ i =>
        obtain ⟨hnot, hn⟩ := nodup_cons.mp hn
        have hmem : name ∈ names := mem_of_getElem? (by simpa using hi)
        rw [if_neg fun (h : n = name) => hnot (h ▸ hmem)]
        exact ih hn (by simpa using hi) (by simpa using ha)

theorem get?_zip_of_notMem {as : List α} (h : name ∉ names) : get? (names.zip as) name = none := by
  induction names generalizing as with
  | nil => simp
  | cons n names ih =>
    cases as with
    | nil => simp
    | cons b as =>
      obtain ⟨hne, hnot⟩ := ne_and_not_mem_of_not_mem_cons h
      rw [zip_cons_cons, get?_cons, if_neg fun h => hne h.symm, ih hnot]

theorem get?_map_of_mem (h : name ∈ names) (a : α) :
    get? (names.map fun n => (n, a)) name = some a := by
  induction names with
  | nil => simp at h
  | cons n names ih =>
    rw [map_cons, get?_cons]
    split
    · rfl
    · next hne =>
      exact ih ((mem_cons.mp h).resolve_left fun h => hne h.symm)

end Table

namespace Loaded

/-- An entry leads to what a name stands for, given the addresses of the frame that it lies in and
of those around.  A value is in a cell of the frame; a method is called on the object that the frame
is; the code of a function is in a cell of the frame, and what the function knows is found from
there. -/
inductive Bound (L : Loaded) (st : Store) (S : List Word) :
    List Nat → Entry → Text → Binding → Prop
  | value {a b : Nat} {as : List Nat} {e : Entry} {name : Text} {w : Word}
      (hkind : e.kind ≠ .fn ∧ e.kind ≠ .method) (hb : (a : Int) + e.offset = b)
      (hcell : Cell L.size (L.heap st) S b w) (hty : L.HasTy st w e.ty) :
      Bound L st S (a :: as) e name (.value w)
  | method {p : Nat} {as : List Nat} {e : Entry} {name cls : Text} {o : Object} {info : ClassInfo}
      (hkind : e.kind = .method) (ho : st.object? (Int64.ofNat p) = some o)
      (hsub : L.context.supers.isSubclass o.cls cls)
      (hinfo : L.context.classes.get? cls = some info) (hmem : info.members.get? name = some e) :
      Bound L st S (p :: as) e name (.method (Int64.ofNat p))
  | function {a b : Nat} {as : List Nat} {R : Resolver} {t : Table Entry}
      {ts : List (Table Entry)} {e : Entry} {r : Routine} {l : Label} {known : Env}
      {at_ : Text → Binding} (htables : R.scopes.tables = t :: ts)
      (he : e = ⟨R.level, r.signature, R.nextLocal, .fn, r.span⟩) (hb : (a : Int) + e.offset = b)
      (hcell : Cell L.size (L.heap st) S b (L.slot l)) (hemitted : L.Emitted (R.fn r) l r)
      (hchain : Chain L.size (L.heap st) S (a :: as))
      (hknown : ∀ name i e, Scopes.locate R.scopes.tables name = some (i, e) → e.kind ≠ .cls →
        known.get? name = some (at_ name))
      (hbound : ∀ name i e, Scopes.locate R.scopes.tables name = some (i, e) → e.kind ≠ .cls →
        Bound L st S ((a :: as).drop i) e name (at_ name)) :
      Bound L st S (a :: as) e r.name (.function r known)

/-- Every name of some scopes that is not a class is known, and its entry leads to what it stands
for. -/
def EnvRel (L : Loaded) (st : Store) (S : List Word) (frames : List Nat)
    (tables : List (Table Entry)) (env : Env) : Prop :=
  ∀ name i e, Scopes.locate tables name = some (i, e) → e.kind ≠ .cls →
    ∃ b, env.get? name = some b ∧ L.Bound st S (frames.drop i) e name b

/-- The scopes around a place, what is known there, the store and the stack belong together. -/
structure Framed (L : Loaded) (s : Scopes) (env : Env) (st : Store) (S : List Word)
    (frames : List Nat) : Prop where
  site : Site L.context s
  env : L.EnvRel st S frames s.tables env
  chain : Chain L.size (L.heap st) S frames
  globals : L.globals <:+ S
  store : L.StoreOK st

variable {L : Loaded} {st st' : Store} {S S' : List Word} {frames : List Nat}
  {tables : List (Table Entry)} {env : Env}

theorem Bound.mono {e : Entry} {name : Text} {b : Binding} (h : L.Bound st S frames e name b)
    (hext : st.Extends st') (hS : S <:+ S') : L.Bound st' S' frames e name b := by
  have hheap := heap_isPrefix (L := L) hext
  induction h with
  | value hkind hb hcell hty =>
    exact .value hkind hb (hcell.mono hheap hS) (hty.mono hext)
  | method hkind ho hsub hinfo hmem =>
    exact .method hkind (hext.object?_eq ho) hsub hinfo hmem
  | function htables he hb hcell hemitted hchain hknown _ ih =>
    exact .function htables he hb (hcell.mono hheap hS) hemitted (hchain.mono hheap hS) hknown ih

namespace EnvRel

section

variable (h : L.EnvRel st S frames tables env)

include h

theorem mono (hext : st.Extends st') (hS : S <:+ S') : L.EnvRel st' S' frames tables env := by
  intro name i e hl hk
  obtain ⟨b, hb, hbound⟩ := h name i e hl hk
  exact ⟨b, hb, hbound.mono hext hS⟩

theorem congr {env' : Env} (heq : ∀ name, env'.get? name = env.get? name) :
    L.EnvRel st S frames tables env' := by
  intro name i e hl hk
  obtain ⟨b, hb, hbound⟩ := h name i e hl hk
  exact ⟨b, (heq name).trans hb, hbound⟩

/-- One more scope, without names. -/
theorem enter (a : Nat) : L.EnvRel st S (a :: frames) ([] :: tables) env := by
  intro name i e hl hk
  obtain ⟨j, rfl, hj⟩ := Scopes.locate_empty hl
  exact h name j e hj hk

end

/-- One more name in the innermost scope. -/
theorem put {t : Table Entry} {ts : List (Table Entry)} {name : Text} {e : Entry} {b : Binding}
    (h : L.EnvRel st S frames (t :: ts) env) (hb : L.Bound st S frames e name b) :
    L.EnvRel st S frames (t.put name e :: ts) ((name, b) :: env) := by
  intro other i e' hl hk
  rw [Table.get?_cons]
  obtain ⟨rfl, rfl, rfl⟩ | ⟨hname, hl⟩ := Scopes.locate_put hl
  · exact ⟨b, if_pos rfl, hb⟩
  · rw [if_neg hname.symm]
    exact h other i e' hl hk

/-- What a function knows where it is called: itself, and what it knew where it was declared. -/
theorem function {a b : Nat} {as : List Nat} {R : Resolver} {t : Table Entry}
    {ts : List (Table Entry)} {r : Routine} {l : Label} {known : Env} {at_ : Text → Binding}
    (htables : R.scopes.tables = t :: ts)
    (hb : (a : Int) + R.nextLocal = b) (hcell : Cell L.size (L.heap st) S b (L.slot l))
    (hemitted : L.Emitted (R.fn r) l r) (hchain : Chain L.size (L.heap st) S (a :: as))
    (hknown : ∀ name i e, Scopes.locate R.scopes.tables name = some (i, e) → e.kind ≠ .cls →
      known.get? name = some (at_ name))
    (hbound : ∀ name i e, Scopes.locate R.scopes.tables name = some (i, e) → e.kind ≠ .cls →
      L.Bound st S ((a :: as).drop i) e name (at_ name)) :
    L.EnvRel st S (a :: as) (R.fn r).scopes.tables ((r.name, .function r known) :: known) := by
  have hclean : (R.fn r).errors = [] :=
    (Routine.resolveInside_still r hemitted.plain _).clean hemitted.clean
  rw [(Resolver.fn_eq htables hclean).2]
  refine put (fun name i e hl hk => ?_)
    (.function htables rfl hb hcell hemitted hchain hknown hbound)
  rw [← htables] at hl
  exact ⟨at_ name, hknown name i e hl hk, hbound name i e hl hk⟩

end EnvRel

namespace Framed

/-- What holds of a store and a stack holds when both have grown. -/
theorem mono {s : Scopes} (h : L.Framed s env st S frames) (hext : st.Extends st')
    (hst' : L.StoreOK st') (hS : S <:+ S') : L.Framed s env st' S' frames :=
  ⟨h.site, h.env.mono hext hS, h.chain.mono (heap_isPrefix hext) hS, h.globals.trans hS, hst'⟩

theorem push {s : Scopes} (h : L.Framed s env st S frames) (w : Word) :
    L.Framed s env st (w :: S) frames :=
  h.mono (.refl st) h.store (suffix_cons w S)

end Framed

end Loaded

/-! ### Members -/

namespace World

variable {W : World} {st : Store} {S : List Word}

/-- What is known inside a method: the fields and the methods of the object.  The object is the
frame that they lie in. -/
theorem members_env (hst : W.StoreOK st) {w : Word} {o : Object} (ho : st.object? w = some o)
    {owner : Text} (hsub : W.context.supers.isSubclass o.cls owner) {info : ClassInfo}
    (hinfo : W.context.classes.get? owner = some info) {names : Table Entry}
    (hnames : ∀ name e, names.get? name = some e → e.kind = .cls) :
    ∃ shape p, W.shapes.get? owner = some shape ∧ w = Int64.ofNat p ∧
      (W.heap st)[p]? = some (Int64.ofNat (W.tableAt o.cls)) ∧
      W.EnvRel st S [p] [info.members, names] (shape.members w o) := by
  obtain ⟨shape, labels, hok⟩ := W.classOK owner info hinfo
  obtain ⟨info', shape', labels', hok', hprefix, htypes, -⟩ :=
    W.refines_of_isSubclass hsub _ _ _ hok
  obtain ⟨info'', hinfo'', hfields⟩ := hst.object_typed ho
  obtain rfl : info' = info'' := Option.some.inj (hok'.info_eq.symm.trans hinfo'')
  obtain ⟨p, rfl, htable, hcells⟩ := hst.object_cells ho
  refine ⟨shape, p, hok.shape_eq, rfl, htable, fun name i e hl hk => ?_⟩
  obtain ⟨rfl, he'⟩ | ⟨j, rfl, hj⟩ := Scopes.locate_cons hl
  · rw [ClassShape.members]
    rcases hok.kinds name _ he' with hfield | hmethod
    · -- The class of the object may have more fields, but this one at the same position.
      obtain ⟨i, hoffset, hname, hty⟩ := hok.field name _ he' hfield
      obtain ⟨t, ht, hbelow⟩ := htypes i _ hty
      have hlt : i < o.fields.length := by
        rw [hfields.length_eq]
        exact (List.getElem?_eq_some_iff.mp ht).1
      have hv : o.fields[i]? = some o.fields[i] := List.getElem?_eq_getElem hlt
      obtain ⟨b, hb, hcell⟩ := hcells i _ hv
      refine ⟨.value o.fields[i], ?_, ?_⟩
      · rw [Table.get?_append, Table.get?_zip hok.nodup hname (a := .value o.fields[i])]
        · rfl
        · rw [List.getElem?_map, hv]
          rfl
      refine .value (by rw [hfield]; simp) (hoffset ▸ hb) (.inl hcell) ?_
      obtain ⟨hlt', rfl⟩ := List.getElem?_eq_some_iff.mp ht
      exact (hfields.get hlt hlt').subtype hbelow
    · refine ⟨.method (Int64.ofNat p), ?_, .method hmethod ho hsub hinfo he'⟩
      obtain ⟨j, owner', r, l, -, -, hget, -⟩ := hok.method name _ he' hmethod
      rw [Table.get?_append, Table.get?_zip_of_notMem, Option.none_or, Table.get?_map_of_mem
        (Hierarchy.mem_names_of_get? hget)]
      intro hmem
      obtain ⟨e'', he'', hk''⟩ := hok.field_mem name hmem
      rw [he'] at he''
      rw [← Option.some.inj he'', hmethod] at hk''
      cases hk''
  · exact absurd (hnames name e (Scopes.locate_singleton.mp hj).2) hk

end World

end Foolscap
