import Foolscap.Proofs.Scope.Silent

/-!
# Names are bound lexically

The walk that resolves names keeps tables of entries for the scopes around the current place.  They
hold what lexical scoping says, at every place and whether or not there were errors, so every use of
a name is bound to what it denotes, and each use that denotes nothing is reported once.
-/

namespace Foolscap

open Lexical List

/-! ### Tables and scopes -/

/-- What an entry tells of a declaration. -/
def Entry.face (e : Entry) : EntryKind × Span × Int := (e.kind, e.site, e.level)

/-- What the entry of a declaration at a level tells of it. -/
def Naming.face (b : Naming) (level : Nat) : EntryKind × Span × Int := (b.kind, b.site, level)

namespace Lexical

/-- A table shows a scope: it has entries at a level for just the declarations that the scope
holds. -/
def Shows (t : Table Entry) (scope : Scope) (level : Nat) : Prop :=
  ∀ name, (t.get? name).map Entry.face = (scope name).map (·.face level)

/-- Tables hold what nested scopes hold. -/
inductive Nested : List (Table Entry) → List Scope → Prop where
  | nil : Nested [] []
  | cons {t : Table Entry} {ts : List (Table Entry)} {scope : Scope} {outer : List Scope}
      (inner : Shows t scope outer.length) (rest : Nested ts outer) :
      Nested (t :: ts) (scope :: outer)

theorem Shows.empty (level : Nat) : Shows [] (firstOf []) level := fun _ => rfl

variable {t : Table Entry} {level : Nat} {b : Naming}

theorem Shows.isSome_eq {scope : Scope} (h : Shows t scope level) (name : Text) :
    (t.get? name).isSome = (scope name).isSome := by
  have := congrArg Option.isSome (h name)
  rwa [Option.isSome_map, Option.isSome_map] at this

theorem firstOf_append (bs : List Naming) (b : Naming) (name : Text) :
    firstOf (bs ++ [b]) name =
      (firstOf bs name).or (if b.name = name then some b else none) := by
  rw [firstOf, List.find?_append]
  congr 1
  by_cases h : b.name = name
  · rw [if_pos h, List.find?_cons_of_pos (by simpa using h)]
  · rw [if_neg h, List.find?_cons_of_neg (by simpa using h), List.find?_nil]

variable {bs : List Naming}

/-- A name that is taken stays as it is. -/
theorem Shows.taken (h : Shows t (firstOf bs) level) (ht : (t.get? b.name).isSome) :
    Shows t (firstOf (bs ++ [b])) level := by
  intro name
  rw [h name, firstOf_append]
  by_cases hname : b.name = name
  · obtain ⟨b', hb'⟩ := Option.isSome_iff_exists.mp ((h.isSome_eq b.name).symm.trans ht)
    rw [hname] at hb'
    rw [hb']
    rfl
  · rw [if_neg hname, Option.or_none]

/-- A new name is held from then on. -/
theorem Shows.put {e : Entry} (h : Shows t (firstOf bs) level) (ht : t.get? b.name = none)
    (he : e.face = b.face level) : Shows (t.put b.name e) (firstOf (bs ++ [b])) level := by
  intro name
  rw [firstOf_append]
  by_cases hname : name = b.name
  · have hnone : firstOf bs b.name = none := by
      have := h.isSome_eq b.name
      rw [ht] at this
      simpa using this.symm
    rw [hname, Table.get?_put_self, hnone, if_pos rfl]
    exact congrArg some he
  · rw [Table.get?_put_of_ne _ _ hname, h name, if_neg (Ne.symm hname), Option.or_none]

namespace Nested

variable {ts : List (Table Entry)} {around : List Scope}

theorem length_eq (h : Nested ts around) : ts.length = around.length := by
  induction h with
  | nil => rfl
  | cons _ _ ih => rw [length_cons, length_cons, ih]

/-- Looking a name up in the tables finds what it denotes. -/
theorem find?_eq (h : Nested ts around) (name : Text) :
    (Scopes.find? ts name).map Entry.face =
      (Lexical.denoted? around name).map fun d => d.1.face d.2 := by
  induction h with
  | nil => rfl
  | @cons t ts scope outer hinner _ ih =>
    have hname := hinner name
    rw [Scopes.find?, Lexical.denoted?]
    cases hb : scope name with
    | none =>
      rw [hb, Option.map_none, Option.map_eq_none_iff] at hname
      rw [hname]
      exact ih
    | some b =>
      rw [hb] at hname
      obtain ⟨e, he, hface⟩ := Option.map_eq_some_iff.mp hname
      rw [he]
      exact congrArg some hface

end Nested

theorem denoted?_lt {around : List Scope} {name : Text}
    (h : denoted? around name = some (b, level)) : level < around.length := by
  induction around with
  | nil => cases h
  | cons scope outer ih =>
    rw [denoted?] at h
    split at h
    · cases h
      exact Nat.lt_succ_self _
    · exact Nat.lt_succ_of_lt (ih h)

end Lexical

/-! ### Expressions -/

mutual

theorem Expr.parts_bind (s : Scopes) : ∀ e : Expr, (e.bind s).parts = e.parts.map (Expr.bind s)
  | .missing | .int _ _ | .bool _ _ | .null _ | .id _ _ _ => rfl
  | .binary _ _ l r => by
    simp only [Expr.bind, Expr.parts, map_cons, map_append, l.parts_bind, r.parts_bind]
  | .not _ e | .print _ e => by
    simp only [Expr.bind, Expr.parts, map_cons, e.parts_bind]
  | .cond _ c t e => by
    simp only [Expr.bind, Expr.parts, map_cons, map_append, c.parts_bind, t.parts_bind,
      e.parts_bind]
  | .call _ _ as _ | .new _ _ as _ | .send _ _ _ as _ _ => by
    simp only [Expr.bind, Expr.parts, map_cons, allParts_bindAll]

theorem allParts_bindAll (s : Scopes) :
    ∀ as : List Expr, allParts (bindAll s as) = (allParts as).map (Expr.bind s)
  | [] => rfl
  | e :: es => by
    simp only [bindAll, allParts, map_append, e.parts_bind, allParts_bindAll s es]

end

/-- What a receiver stands for does not depend on whether the method is found. -/
theorem Scopes.receive_use? (s : Scopes) (receiver method : Text) :
    (s.receive receiver method).use? = s.use? receiver := by
  unfold receive
  cases s.use? receiver with
  | none => rfl
  | some u =>
    dsimp only
    split
    · rfl
    · split
      · rfl
      · split
        · split
          · rfl
          · rfl
        · rfl
    · rfl

section

variable {s : Scopes} {around : List Scope} (h : Nested s.tables around)

include h

/-- A name is bound to the entry of the declaration that it denotes. -/
theorem Lexical.Nested.boundAs (role : Role) (name : Text) (place : Position) :
    Occurrence.BoundAs ⟨role, name, place, around⟩ ⟨role, name, place, s.use? name⟩ := by
  have hfind := h.find?_eq name
  refine ⟨rfl, rfl, rfl, ?_, ?_⟩
  · intro hnone
    rw [show denoted? around name = none from hnone, Option.map_none,
      Option.map_eq_none_iff] at hfind
    show (s.entry? name).map _ = none
    rw [Scopes.entry?, hfind]
    rfl
  · intro b level hsome
    have hlt : level < around.length := denoted?_lt hsome
    rw [show denoted? around name = some (b, level) from hsome] at hfind
    obtain ⟨e, he, hface⟩ := Option.map_eq_some_iff.mp hfind
    simp only [Entry.face, Naming.face, Prod.mk.injEq] at hface
    obtain ⟨hkind, hsite, hlevel⟩ := hface
    have hdepth : s.level = around.length - 1 := by rw [Scopes.level, h.length_eq]
    refine ⟨⟨e, s.level⟩, ?_, hkind, hsite, hlevel, hdepth, ?_⟩
    · show (s.entry? name).map _ = _
      rw [Scopes.entry?, he]
      rfl
    · simp only [Use.hops, Occurrence.level, hlevel, hdepth]
      omega

/-- The uses of names in an expression are bound to what they denote. -/
theorem Expr.named_bind (e : Expr) :
    List.Forall₂ Occurrence.BoundAs (e.occurrences around) (e.bind s).named := by
  rw [Expr.occurrences, Expr.named, Expr.parts_bind, filterMap_map]
  induction e.parts with
  | nil => exact .nil
  | cons part parts ih =>
    cases part
    case id => exact .cons (h.boundAs _ _ _) ih
    case call => exact .cons (h.boundAs _ _ _) ih
    case send sp receiver method as u t =>
      refine .cons ?_ ih
      rw [s.receive_use?]
      exact h.boundAs _ _ _
    all_goals exact ih

theorem Lexical.Nested.isSome_entry? (name : Text) :
    (s.entry? name).isSome = (denoted? around name).isSome := by
  have := congrArg Option.isSome (h.find?_eq name)
  rwa [Option.isSome_map, Option.isSome_map] at this

/-- A name at the top of an expression that denotes nothing is reported, and no other one is
reported as undeclared. -/
theorem Expr.undeclared_error? (e : Expr) :
    ((s.error? e).map fun err => (⟨e.start, .scoping err⟩ : Diagnostic)).filter
        Diagnostic.isUndeclared =
      ((e.occurrence? around).filter (·.denoted?.isNone)).map Occurrence.diagnostic := by
  cases e
  case id sp name u | call sp name as u =>
    rw [Scopes.error?, h.isSome_entry?, Expr.occurrence?]
    cases hd : denoted? around name <;>
      simp [Option.filter, Occurrence.denoted?, hd, Diagnostic.isUndeclared,
        Occurrence.diagnostic, Role.undeclared]
  case new sp name as en =>
    show ((s.error? (.new sp name as en)).map _).filter _ = none
    rw [Scopes.error?]
    split
    · rfl
    · split <;> rfl
  case send sp receiver method as u t =>
    have huse : (s.receive receiver method).use?.isSome = (denoted? around receiver).isSome := by
      rw [s.receive_use?, ← h.isSome_entry?, Scopes.use?, Option.isSome_map]
    rw [Scopes.error?, Expr.occurrence?]
    cases hd : denoted? around receiver <;> rw [hd] at huse <;>
      cases hr : s.receive receiver method <;> rw [hr] at huse <;>
      simp [Option.filter, Occurrence.denoted?, hd, Reception.use?, Diagnostic.isUndeclared,
        Occurrence.diagnostic, Role.undeclared] at huse ⊢
  all_goals rfl

/-- The uses of names in an expression that denote nothing are reported, each of them once. -/
theorem Expr.undeclared_scopeErrors (e : Expr) :
    (e.scopeErrors s).filter Diagnostic.isUndeclared =
      ((e.occurrences around).filter (·.denoted?.isNone)).map Occurrence.diagnostic := by
  rw [Expr.scopeErrors, Expr.occurrences, filter_filterMap, filter_filterMap,
    map_filterMap]
  exact congrArg (List.filterMap · e.parts) (funext fun part => part.undeclared_error? h)

end

namespace Resolver

/-! ### Declared names -/

variable {R : Resolver} {before : List Naming} {outer : List Scope}

section

variable (h : Nested R.scopes.tables (firstOf before :: outer))

include h

theorem level_eq_of_nested : R.level = outer.length := by
  rw [level, Scopes.level, h.length_eq, length_cons, Nat.add_sub_cancel]

/-- A name that is declared is held from then on, if it was not held before. -/
theorem declare_nested {b : Naming} {e : Entry} (he : e.face = b.face outer.length)
    (pos : Position) (what : Declared) :
    Nested (R.declare pos what b.name e).scopes.tables (firstOf (before ++ [b]) :: outer) := by
  generalize hts : R.scopes.tables = ts at h
  cases h with
  | @cons t ts _ _ hinner hrest =>
    have htaken : R.taken b.name = (t.get? b.name).isSome := by
      rw [taken, hts]
      rfl
    rw [declare, htaken]
    by_cases hsome : (t.get? b.name).isSome
    · rw [if_pos hsome, report, hts]
      exact .cons (hinner.taken hsome) hrest
    · rw [if_neg hsome, install_eq hts]
      exact .cons (hinner.put (by simpa using hsome) he) hrest

theorem checkNames_nested (pos : Position) (t : Ty) :
    Nested (R.checkNames pos t).scopes.tables (firstOf before :: outer) := by
  rwa [(R.checkNames_still pos t).scopes]

theorem var_nested (v : VarDecl) :
    Nested (R.var v).scopes.tables (firstOf (before ++ [(Decl.var v).naming]) :: outer) := by
  have h' := checkNames_nested h v.span.start v.annotation.ty
  refine declare_nested (R := (R.checkNames _ _).takeLocal.2) (b := (Decl.var v).naming) h' ?_ _ _
  rw [level_eq_of_nested h']
  rfl

theorem fn_nested (f : Routine) :
    Nested (R.fn f).scopes.tables (firstOf (before ++ [(Decl.fn f).naming]) :: outer) := by
  have h' := checkNames_nested h f.span.start f.ret.ty
  refine declare_nested (R := (R.checkNames _ _).takeLocal.2) (b := (Decl.fn f).naming) h' ?_ _ _
  rw [level_eq_of_nested h']
  rfl

theorem params_nested (offset : Int) (ps : List Param) :
    Nested (R.params offset ps).scopes.tables
      (firstOf (before ++ ps.map Param.naming) :: outer) := by
  induction ps generalizing R before offset with
  | nil => rwa [map_nil, append_nil]
  | cons p ps ih =>
    have h' := checkNames_nested h p.span.start p.annotation.ty
    rw [map_cons, append_cons]
    refine ih (declare_nested (b := p.naming) h' ?_ _ _) _
    rw [level_eq_of_nested h']
    rfl

end

/-! ### The walk -/

/-- What a part of the walk does to the uses of names in it: they are bound to what they denote, and
those that denote nothing are reported. -/
structure Walked (R R' : Resolver) (os : List Occurrence) (ns : List Named) : Prop where
  bound : List.Forall₂ Occurrence.BoundAs os ns
  errors : R'.errors.filter Diagnostic.isUndeclared = R.errors.filter Diagnostic.isUndeclared ++
    (os.filter (·.denoted?.isNone)).map Occurrence.diagnostic

namespace Walked

variable {R R' R'' : Resolver} {os os' : List Occurrence} {ns ns' : List Named}

theorem nil (R : Resolver) : Walked R R [] [] := ⟨.nil, (append_nil _).symm⟩

theorem append (h : Walked R R' os ns) (h' : Walked R' R'' os' ns') :
    Walked R R'' (os ++ os') (ns ++ ns') := by
  refine ⟨rel_append h.bound h'.bound, ?_⟩
  rw [h'.errors, h.errors, filter_append, map_append, append_assoc]

theorem after (h : Walked R' R'' os ns) (hs : Silent R R') : Walked R R'' os ns :=
  ⟨h.bound, h.errors.trans (congrArg (· ++ _) hs.undeclared)⟩

theorem silent (h : Walked R R' os ns) (hs : Silent R' R'') : Walked R R'' os ns :=
  ⟨h.bound, hs.undeclared.trans h.errors⟩

end Walked

theorem expr_walked {around : List Scope} (h : Nested R.scopes.tables around) (e : Expr) :
    Walked R (R.expr e).2 (e.occurrences around) (R.expr e).1.named :=
  ⟨e.named_bind h, by rw [expr, filter_append, e.undeclared_scopeErrors h]⟩

end Resolver

mutual

/-- Every name in a declaration was looked up in the scopes that were open at its place, and what
was found was attached to it. -/
theorem Decl.walked {before : List Naming} {outer : List Scope} :
    ∀ (d : Decl), d.Plain → ∀ {R : Resolver}, Nested R.scopes.tables (firstOf before :: outer) →
      R.Walked (d.resolve R).2 (d.occurrences before outer) (d.resolve R).1.named ∧
        Nested (d.resolve R).2.scopes.tables (firstOf (before ++ [d.naming]) :: outer)
  | .var v, _, R, h => by
    rw [Decl.resolve_var, Decl.occurrences, Decl.named]
    exact ⟨(R.expr_walked h v.value).silent (Resolver.var_silent _ v),
      Resolver.var_nested (R := (R.expr v.value).2) h v⟩
  | .fn f, hp, R, h => by
    rw [Decl.resolve_fn, Decl.occurrences, Decl.named]
    have hfn := Resolver.fn_nested h f
    refine ⟨(Routine.walked f hp hfn).after (R.fn_silent f), ?_⟩
    dsimp only
    rw [(Routine.resolveInside_still f hp _).scopes]
    exact hfn
  | .cls _, hp, _, _ => hp.elim

/-- The uses of names in a function or method are bound to what they denote. -/
theorem Routine.walked {around : List Scope} :
    ∀ (f : Routine), f.Plain → ∀ {R : Resolver}, Nested R.scopes.tables around →
      R.Walked (f.resolveInside R).2 (f.occurrences around) (f.resolveInside R).1.named
  | ⟨_, _, _, params, decls, body⟩, hp, R, h => by
    rw [Routine.resolveInside, Routine.occurrences, Routine.named]
    have hparams : Nested ((R.enter []).params Frame.firstParam params).scopes.tables
        (firstOf ([] ++ params.map Param.naming) :: around) :=
      Resolver.params_nested (.cons (.empty _) h) Frame.firstParam params
    obtain ⟨hdecls, hnested⟩ := walkedDecls decls hp.2.2 hparams
    have hinside := (hdecls.append (Resolver.expr_walked hnested body)).after
      ((R.enter_silent []).trans ((R.enter []).params_silent _ params))
    exact hinside.silent (Resolver.leave_silent _ _)

theorem walkedDecls {before : List Naming} {outer : List Scope} :
    ∀ (ds : List Decl), AllPlain ds → ∀ {R : Resolver},
      Nested R.scopes.tables (firstOf before :: outer) →
      R.Walked (resolveDecls R ds).2 (occurrencesAfter before outer ds)
          (namedIn (resolveDecls R ds).1) ∧
        Nested (resolveDecls R ds).2.scopes.tables
          (firstOf (before ++ ds.map Decl.naming) :: outer)
  | [], _, R, h => by
    rw [resolveDecls, occurrencesAfter, namedIn, map_nil, append_nil]
    exact ⟨.nil R, h⟩
  | d :: ds, hp, R, h => by
    obtain ⟨hd, hnested⟩ := Decl.walked d hp.1 h
    obtain ⟨hds, hnested'⟩ := walkedDecls ds hp.2 hnested
    rw [resolveDecls_cons, occurrencesAfter, namedIn, map_cons,
      append_cons before d.naming (ds.map Decl.naming)]
    exact ⟨hd.append hds, hnested'⟩

end

/-! ### Classes -/

namespace Layout

/-- A scope with one more member over those that it holds, unless its name is declared already. -/
def above (l : Layout) (b : Naming) (scope : Scope) : Scope := fun name =>
  if name = b.name ∧ b.name ∉ l.declared then atop (some b) (scope name) else scope name

variable {l : Layout} {b : Naming}

theorem above_self (h : b.name ∉ l.declared) (scope : Scope) :
    l.above b scope b.name = atop (some b) (scope b.name) := if_pos ⟨rfl, h⟩

theorem above_of_ne (l : Layout) {name : Text} (h : name ≠ b.name) (scope : Scope) :
    l.above b scope name = scope name := if_neg fun h' => h h'.1

theorem above_of_mem (h : b.name ∈ l.declared) (scope : Scope) :
    l.above b scope = scope := funext fun _ => if_neg fun h' => h'.2 h

variable {level : Nat} {scope : Scope}

/-- A member that is laid out stands over those that were there. -/
theorem Adds.shows {p : Placed} {e : Entry} (h : l.Adds b.name e p) (he : e.face = b.face level)
    (hscope : Shows l.members scope level) :
    Shows p.layout.members (l.above b scope) level ∧
      ∀ name, name ∈ p.layout.declared ↔ name = b.name ∨ name ∈ l.declared := by
  have hkind : e.kind = b.kind := congrArg Prod.fst he
  -- What the scope holds under the name of an inherited member is of its kind.
  have hheld : ∀ {e₀}, l.members.get? b.name = some e₀ →
      ∃ i, scope b.name = some i ∧ i.kind = e₀.kind := by
    intro e₀ he₀
    have hname := hscope b.name
    rw [he₀] at hname
    obtain ⟨i, hi, hface⟩ := Option.map_eq_some_iff.mp hname.symm
    exact ⟨i, hi, congrArg Prod.fst hface⟩
  have hput : ∀ {e' : Entry}, e'.face = e.face → atop (some b) (scope b.name) = some b →
      b.name ∉ l.declared → Shows (l.members.put b.name e') (l.above b scope) level := by
    intro e' he' hover hnew name
    by_cases hname : name = b.name
    · rw [hname, Table.get?_put_self, above_self hnew, hover]
      exact congrArg some (he'.trans he)
    · rw [Table.get?_put_of_ne _ _ hname, l.above_of_ne hname, hscope name]
  cases h with
  | redeclared hdeclared hlayout _ =>
    rw [hlayout, above_of_mem hdeclared]
    exact ⟨hscope, fun name => ⟨.inr, fun h => h.elim (fun h => h ▸ hdeclared) id⟩⟩
  | clash hnew hinherited hne hlayout _ =>
    rw [hlayout]
    refine ⟨fun name => ?_, fun name => mem_cons⟩
    show (l.members.get? name).map _ = _
    rw [hscope name]
    by_cases hname : name = b.name
    · obtain ⟨i, hi, hik⟩ := hheld hinherited
      rw [hname, above_self hnew, hi, atop, if_neg (by rw [hik, ← hkind]; exact hne.symm)]
    · rw [l.above_of_ne hname]
  | fresh hnew hunknown hmembers hdeclared _ _ _ =>
    have hnone : scope b.name = none := by
      have := hscope.isSome_eq b.name
      rw [hunknown] at this
      simpa using this.symm
    rw [hmembers, hdeclared]
    exact ⟨hput rfl (by rw [hnone]; rfl) hnew, fun name => mem_cons⟩
  | override _ hnew hinherited heq _ hmembers hdeclared _ _ _ =>
    obtain ⟨i, hi, hik⟩ := hheld hinherited
    rw [hmembers, hdeclared]
    refine ⟨hput rfl ?_ hnew, fun name => mem_cons⟩
    rw [hi, atop, if_pos (by rw [hik, ← hkind, heq])]

/-- Members that are laid out one after the other stand over those that were there, the first one of
a name before the others.  Names that are declared already stay as they are. -/
theorem AddsAll.shows {l' : Layout} {ms : List (Text × Entry)} (h : l.AddsAll ms l')
    {bs : List Naming}
    (hbs : ms.map (fun m => (m.1, m.2.face)) = bs.map fun b => (b.name, b.face level))
    (hscope : Shows l.members scope level) :
    Shows l'.members (fun name => if name ∈ l.declared then scope name
      else atop (firstOf bs name) (scope name)) level := by
  induction h generalizing bs scope with
  | nil l =>
    obtain rfl : bs = [] := by simpa using hbs.symm
    intro name
    rw [hscope name]
    dsimp only
    split <;> rfl
  | @cons l l' own e ms p head _ ih =>
    cases bs with
    | nil => cases hbs
    | cons b bs =>
      rw [map_cons, map_cons, List.cons.injEq, Prod.mk.injEq] at hbs
      obtain ⟨⟨rfl, hface⟩, hbs⟩ := hbs
      obtain ⟨hinner, hdeclared⟩ := head.shows hface hscope
      intro name
      rw [ih hbs hinner name]
      congr 1
      dsimp only
      by_cases hmem : name ∈ l.declared
      · rw [if_pos ((hdeclared name).mpr (.inr hmem)), if_pos hmem]
        by_cases hname : name = b.name
        · rw [above_of_mem (hname ▸ hmem)]
        · rw [l.above_of_ne hname]
      · rw [if_neg hmem]
        by_cases hname : name = b.name
        · subst hname
          rw [if_pos ((hdeclared _).mpr (.inl rfl)), above_self hmem, firstOf,
            List.find?_cons_of_pos (by simp)]
        · rw [if_neg fun h => ((hdeclared name).mp h).elim hname hmem, l.above_of_ne hname, firstOf,
            firstOf, List.find?_cons_of_neg (by simpa using Ne.symm hname)]

end Layout

/-- The walk has gone over some classes, given the last one first: the global scope holds them, and
the context knows their members. -/
structure Resolver.Traced (R : Resolver) (global : Table Entry) (earlier : List ClassDecl) :
    Prop where
  tables : R.scopes.tables = [global]
  described : R.scopes.context.Described global
  classes : Shows global (globalScope earlier) 0
  members : ∀ cls name,
    ((R.scopes.context.classes.get? cls).bind (·.members.get? name)).map Entry.face =
      (membersOf earlier cls name).map (·.face 1)

namespace Resolver.Traced

variable {R : Resolver} {global : Table Entry} {earlier : List ClassDecl} {c : ClassDecl}
  (h : R.Traced global earlier)

include h

/-- A class inherits the members of its superclass. -/
theorem shows_inherit (c : ClassDecl) :
    Shows (R.inherit c).2.1.members (inheritedBy earlier c) 1 := by
  intro name
  rw [inheritedBy]
  obtain ⟨hnone, -, hempty⟩ | ⟨super, info, l, hsuper, hinfo, ⟨hmembers, -⟩, -, -, heq⟩ :=
    h.described.inherit_cases h.tables c
  · rw [hempty]
    cases hsuper : c.super with
    | none => rfl
    | some super =>
      rw [hsuper, Option.bind_some] at hnone
      have := h.members super name
      rw [hnone] at this
      exact this
  · have := h.members super name
    rw [hinfo, Option.bind_some, hmembers] at this
    rw [heq, hsuper]
    exact this

/-- The members of a class are its own ones over those that it inherits. -/
theorem shows_layoutOf (c : ClassDecl) :
    Shows (R.layoutOf c).members (ownOver c (inheritedBy earlier c)) 1 := by
  have hlevel : R.level = 0 := by
    rw [Resolver.level, Scopes.level, h.tables]
    rfl
  have hadds := R.layoutOf_addsAll c
  rw [hlevel] at hadds
  have hmembers : (c.members 1).map (fun m => (m.1, m.2.face)) =
      (c.fields.map Field.naming ++ c.methods.map Method.naming).map
        fun b => (b.name, b.face 1) := by
    simp only [ClassDecl.members, map_append, map_map]
    rfl
  have hdeclared : (R.inherit c).2.1.declared = [] := by
    obtain ⟨-, -, hempty⟩ | ⟨_, _, l, -, -, -, -, hdeclared, heq⟩ :=
      h.described.inherit_cases h.tables c
    · rw [hempty]
    · rwa [heq]
  intro name
  rw [hadds.shows hmembers (h.shows_inherit c) name, hdeclared]
  rfl

theorem laid_silent (c : ClassDecl) : R.Silent (R.laid c) :=
  R.laid_silent (h.described.sound_inherit h.tables c)

/-- Whether a class of a name was declared. -/
theorem isSome_get? (name : Text) : (global.get? name).isSome ↔ ∃ d ∈ earlier, d.name = name := by
  rw [h.classes.isSome_eq, globalScope, firstOf, List.find?_isSome]
  simp [ClassDecl.naming]

/-- The global table after a class was declared. -/
theorem shows_global (c : ClassDecl) :
    ∃ global', (R.scopesAfter global c).tables = [global'] ∧
      Shows global' (globalScope (c :: earlier)) 0 := by
  have hscope : globalScope (c :: earlier) =
      firstOf (earlier.reverse.map ClassDecl.naming ++ [c.naming]) := by
    rw [globalScope, reverse_cons, map_append, map_singleton]
  have hlevel : R.level = 0 := by
    rw [Resolver.level, Scopes.level, h.tables]
    rfl
  rw [Resolver.scopesAfter, hscope]
  cases hget : global.get? c.name with
  | some e =>
    have htaken : (global.get? c.naming.name).isSome := Option.isSome_of_eq_some hget
    exact ⟨global, h.tables, h.classes.taken htaken⟩
  | none =>
    refine ⟨_, rfl, h.classes.put (b := c.naming) hget ?_⟩
    rw [Resolver.infoOf, Resolver.infoWith, hlevel]
    rfl

/-- The members of the classes after one more was declared. -/
theorem members_scopesAfter (c : ClassDecl) (cls name : Text) :
    (((R.scopesAfter global c).context.classes.get? cls).bind (·.members.get? name)).map
        Entry.face = (membersOf (c :: earlier) cls name).map (·.face 1) := by
  have htaken := h.isSome_get? c.name
  rw [Resolver.scopesAfter, membersOf]
  cases hget : global.get? c.name with
  | some e =>
    -- The first class of the name stays.
    obtain ⟨d, hd, hname⟩ := htaken.mp (Option.isSome_of_eq_some hget)
    rw [if_neg fun hc => hc.2 d hd (hname.trans hc.1)]
    exact h.members cls name
  | none =>
    have hnew : ∀ d ∈ earlier, d.name ≠ c.name := by
      intro d hd hname
      have := htaken.mpr ⟨d, hd, hname⟩
      rw [hget] at this
      cases this
    dsimp only
    rw [Context.classes_declare]
    by_cases hcls : cls = c.name
    · subst hcls
      rw [if_pos ⟨rfl, hnew⟩, Table.get?_put_self]
      exact h.shows_layoutOf c name
    · rw [if_neg fun hc => hcls hc.1.symm, Table.get?_put_of_ne _ _ hcls]
      exact h.members cls name

end Resolver.Traced

variable {R : Resolver}

theorem walkedMethods {around : List Scope} (ms : List Method)
    (hplain : ∀ m ∈ ms, m.routine.Plain) (offsets : List Int) (h : Nested R.scopes.tables around) :
    R.Walked (resolveMethods R offsets ms).2 (ms.flatMap fun m => m.routine.occurrences around)
      (namedInMethods (resolveMethods R offsets ms).1) := by
  induction ms generalizing R offsets with
  | nil =>
    rw [resolveMethods]
    exact .nil R
  | cons m ms ih =>
    obtain ⟨f, offset⟩ := m
    have hf : f.Plain := hplain _ mem_cons_self
    rw [resolveMethods, flatMap_cons, namedInMethods]
    refine (f.walked hf h).append (ih (forall_mem_cons.mp hplain).2 _ ?_)
    rwa [(f.resolveInside_still hf R).scopes]

variable {global : Table Entry} {earlier : List ClassDecl}

/-- The uses of names in a class are bound to what they denote, and the walk goes on. -/
theorem ClassDecl.walked {c : ClassDecl} (h : R.Traced global earlier) (hplain : c.Plain) :
    R.Walked (c.resolve R).2 (c.occurrences earlier) (c.resolve R).1.named ∧
      ∃ global', (c.resolve R).2.Traced global' (c :: earlier) := by
  obtain ⟨global', htables', hglobal'⟩ := h.shows_global c
  constructor
  · have hnested : Nested (c.atBodies R).scopes.tables
        [ownOver c (inheritedBy earlier c), globalScope (c :: earlier)] := by
      show Nested (_ :: (R.laid c).scopes.tables) _
      rw [R.laid_scopes h.tables, htables']
      exact .cons (h.shows_layoutOf c) (.cons hglobal' .nil)
    have hbodies := walkedMethods c.methods hplain.2 (R.laidMethods c).1 hnested
    rw [ClassDecl.resolve_eq, ClassDecl.named, ClassDecl.occurrences]
    exact (hbodies.after ((h.laid_silent c).trans (Resolver.enter_silent _ _))).silent
      ((Resolver.leave_silent _ _).trans (Resolver.note_silent _ _ _))
  · obtain ⟨global'', htables'', hdescribed⟩ := h.described.resolve h.tables hplain
    have hscopes := c.resolve_scopes hplain h.tables
    obtain rfl : global'' = global' := by
      rw [hscopes, htables'] at htables''
      exact (List.cons.inj htables'').1.symm
    refine ⟨global'', htables'', hdescribed, hglobal', ?_⟩
    rw [hscopes]
    exact h.members_scopesAfter c

theorem walkedClasses (cs : List ClassDecl) (h : R.Traced global earlier)
    (hplain : ∀ c ∈ cs, c.Plain) :
    R.Walked (resolveClasses R cs).2 (classOccurrences earlier cs)
        ((resolveClasses R cs).1.flatMap ClassDecl.named) ∧
      ∃ global', (resolveClasses R cs).2.Traced global' (cs.reverse ++ earlier) := by
  induction cs generalizing R global earlier with
  | nil => exact ⟨.nil R, global, h⟩
  | cons c cs ih =>
    obtain ⟨hc, global₁, h₁⟩ := ClassDecl.walked h (hplain c mem_cons_self)
    obtain ⟨hcs, global', h'⟩ := ih h₁ (forall_mem_cons.mp hplain).2
    refine ⟨hc.append hcs, global', ?_⟩
    rw [reverse_cons, append_assoc]
    exact h'

/-! ### Programs -/

namespace Program

/-- **Name resolution is lexical scoping.**  Resolving the names of a program that was read from a
text, whether or not there are scope errors, binds every variable, called function and receiver to
the entry of the declaration that lexical scoping gives: the first one of the name in the innermost
scope that holds it.  The level of the use is the number of function, method and class bodies around
it, the level of the entry that of the scope, and access links lead from one to the other.  A use
that denotes nothing stays unbound, and each such use is reported once, in order. -/
theorem names_bound {source : Text} {p : Program} (hp : parse source = .ok p) :
    List.Forall₂ Occurrence.BoundAs p.occurrences (p.resolve {}).program.named ∧
      (p.resolve {}).errors.filter Diagnostic.isUndeclared =
        (p.occurrences.filter (·.denoted?.isNone)).map Occurrence.diagnostic := by
  obtain ⟨hplainClasses, hplainDecls⟩ := plain_of_parse hp
  have hstart : Resolver.Traced { scopes := ⟨[[]], {}⟩ } [] [] :=
    ⟨rfl, .empty, .empty 0, fun _ _ => rfl⟩
  obtain ⟨hclasses, global, htraced⟩ := walkedClasses p.classes hstart hplainClasses
  have hnested : Nested (resolveClasses { scopes := ⟨[[]], {}⟩ } p.classes).2.scopes.tables
      [firstOf (p.classes.map ClassDecl.naming)] := by
    have := htraced.classes
    rw [List.append_nil, globalScope, List.reverse_reverse] at this
    rw [htraced.tables]
    exact .cons this .nil
  obtain ⟨hdecls, hnested'⟩ := walkedDecls p.decls hplainDecls hnested
  have hall := (hclasses.append hdecls).append (Resolver.expr_walked hnested' p.body)
  exact ⟨hall.bound, hall.errors⟩

/-- A class that redeclares a field and wrongly a method, a variable that does not see itself, and a
function whose parameter hides the variable. -/
def hidingSource : Text :=
  "let class A (n:int) { fun m:int () n; } " ++
  "class B extends A (n:bool, m:int) { fun k:int () m(); } " ++
  "var x:int = x; fun f:int (x:int) let var y:int = x; in y + z + f(x); in f(x);"

/-- Two uses of the program denote nothing, and the others what is declared around them. -/
theorem names_bound_hiding :
    ∃ p, parse hidingSource = .ok p ∧
      p.occurrences.map (fun o => o.denoted?.map fun d => (d.1.kind, d.2)) =
        [some (.field, 1), some (.method, 1), none, some (.par, 1), some (.var, 1), none,
          some (.fn, 0), some (.par, 1), some (.fn, 0), some (.var, 0)] ∧
      List.Forall₂ Occurrence.BoundAs p.occurrences (p.resolve {}).program.named ∧
      ((p.resolve {}).errors.filter Diagnostic.isUndeclared).length = 2 := by
  obtain ⟨p, hp, hrun⟩ := exists_ok_of_any (x := parse hidingSource)
    (q := fun p => p.occurrences.map (fun o => o.denoted?.map fun d => (d.1.kind, d.2)) =
        [some (.field, 1), some (.method, 1), none, some (.par, 1), some (.var, 1), none,
          some (.fn, 0), some (.par, 1), some (.fn, 0), some (.var, 0)] &&
      (p.occurrences.filter (·.denoted?.isNone)).length = 2) (by decide +kernel)
  simp only [Bool.and_eq_true, decide_eq_true_eq] at hrun
  obtain ⟨hbound, hreported⟩ := names_bound hp
  refine ⟨p, hp, hrun.1, hbound, ?_⟩
  rw [hreported, List.length_map, hrun.2]

end Program

end Foolscap
