import Foolscap.Proofs.Tree.Derived

/-!
# Parsed programs

A program that was read from a text is plain, and declares no more names than the text has bytes:
the grammar derives it from the tokens of the text, and every declared name is one of them.
-/

namespace Foolscap

open Grammar List Token

/-- No identifier among some tokens is empty. -/
def Token.Named (ts : List Token) : Prop := ∀ t ∈ ts, t.kind = .identifier → t.literal ≠ []

variable {ts : List Token}

theorem Token.named_append {us : List Token} : Named (ts ++ us) ↔ Named ts ∧ Named us :=
  forall_mem_append

namespace Grammar

variable {ts : List Token}

theorem TypeOf.isComplete {ty : Ty} (h : TypeOf ts ty) (hn : Token.Named ts) : ty.isComplete := by
  cases h with
  | int _ => rfl
  | bool _ => rfl
  | ref hname =>
    obtain ⟨t, rfl, hkind, rfl⟩ := hname
    simpa [Ty.isComplete] using hn t mem_cons_self hkind

theorem Separated.params_plain {ps : List (Text × Ty)} (h : Separated ParamOf ts ps)
    (hn : Token.Named ts) : (∀ p ∈ ps, p.2.isComplete) ∧ ps.length ≤ ts.length := by
  induction h with
  | one hp =>
    obtain ⟨hi, -, hty⟩ := hp
    simp only [named_append] at hn
    simp [hty.isComplete hn.2.2, hi.length]
  | more hp hc _ ih =>
    obtain ⟨hi, -, hty⟩ := hp
    simp only [named_append] at hn
    obtain ⟨hps, hlen⟩ := ih hn.2.2
    refine ⟨forall_mem_cons.mpr ⟨hty.isComplete hn.1.2.2, hps⟩, ?_⟩
    simp only [length_cons, length_append, hi.length]
    omega

theorem Enclosed.params_plain {ps : List (Text × Ty)} (h : Enclosed ParamOf ts ps)
    (hn : Token.Named ts) : (∀ p ∈ ps, p.2.isComplete) ∧ ps.length ≤ ts.length := by
  cases h with
  | none _ _ => simp
  | some _ hps _ =>
    simp only [named_append] at hn
    obtain ⟨hall, hlen⟩ := hps.params_plain hn.2.1
    refine ⟨hall, ?_⟩
    simp only [length_append]
    omega

end Grammar

/-! ### Declarations -/

mutual

/-- By the rules of the grammar no type in a declaration is missing.  Each declared name is a token
of its own, so the tokens bound the weight. -/
theorem Decl.plain_of_derived : ∀ (d : Decl) {ts : List Token}, DeclOf ts d.clause →
    Token.Named ts → d.Plain ∧ d.weight ≤ ts.length
  | .var v, ts, h, hn => by
    rw [Decl.clause] at h
    cases h with
    | fn h => cases h
    | var hv hi hc hty ha hvalue hs =>
      simp only [named_append] at hn
      refine ⟨hty.isComplete hn.2.2.2.1, ?_⟩
      simp only [Decl.weight, length_append, hv.length]
      omega
  | .fn r, ts, h, hn => by
    rw [Decl.clause] at h
    generalize hclause : r.clause = clause at h
    cases h with
    | fn h =>
      subst hclause
      exact r.plain_of_derived h hn
    | var =>
      obtain ⟨_, _, _, _, _, _⟩ := r
      cases hclause
  | .cls c, ts, h, hn => by
    obtain ⟨_, _, _, _, _, _, _⟩ := c
    rw [Decl.clause, ClassDecl.clause] at h
    cases h with
    | fn h => cases h

theorem Routine.plain_of_derived : ∀ (r : Routine) {ts : List Token}, RoutineOf ts r.clause →
    Token.Named ts → r.Plain ∧ r.weight ≤ ts.length
  | ⟨_, name, ret, params, decls, body⟩, ts, h, hn => by
    rw [Routine.clause] at h
    cases h with
    | mk hf hi hc hret hps hlocals hbody hs =>
      simp only [named_append] at hn
      obtain ⟨hparams, hlen⟩ := hps.params_plain hn.2.2.2.2.1
      obtain ⟨hdecls, hweight⟩ := locals_plain_of_derived decls hlocals hn.2.2.2.2.2.1
      refine ⟨⟨hret.isComplete hn.2.2.2.1, forall_mem_map.mp hparams, hdecls⟩, ?_⟩
      rw [length_map] at hlen
      simp only [Routine.weight, length_append, hf.length]
      omega

theorem locals_plain_of_derived : ∀ (ds : List Decl) {ts : List Token}, LocalsOf ts (clauses ds) →
    Token.Named ts → AllPlain ds ∧ weightAll ds ≤ ts.length
  | ds, ts, h, hn => by
    generalize hds : clauses ds = cs at h
    cases h with
    | none =>
      cases ds with
      | nil => exact ⟨trivial, Nat.zero_le _⟩
      | cons => cases hds
    | some hl hmany hne hi =>
      subst hds
      simp only [named_append] at hn
      obtain ⟨hall, hweight⟩ := decls_plain_of_derived ds hmany hn.2.1
      refine ⟨hall, ?_⟩
      simp only [length_append]
      omega

theorem decls_plain_of_derived : ∀ (ds : List Decl) {ts : List Token},
    Many DeclOf ts (clauses ds) → Token.Named ts → AllPlain ds ∧ weightAll ds ≤ ts.length
  | [], _, _, _ => ⟨trivial, Nat.zero_le _⟩
  | d :: ds, ts, h, hn => by
    rw [clauses] at h
    cases h with
    | cons hd hds =>
      simp only [named_append] at hn
      obtain ⟨hplain, hweight⟩ := d.plain_of_derived hd hn.1
      obtain ⟨hall, hweights⟩ := decls_plain_of_derived ds hds hn.2
      refine ⟨⟨hplain, hall⟩, ?_⟩
      simp only [weightAll, length_append]
      omega

end

theorem methods_plain_of_derived (ms : List Method) (h : Many RoutineOf ts (methodClauses ms))
    (hn : Token.Named ts) :
    (∀ m ∈ ms, m.routine.Plain) ∧ (ms.map fun m => m.routine.weight).sum ≤ ts.length := by
  induction ms generalizing ts with
  | nil => exact ⟨nofun, Nat.zero_le _⟩
  | cons m ms ih =>
    obtain ⟨routine, _⟩ := m
    rw [methodClauses] at h
    cases h with
    | cons hm hms =>
      simp only [named_append] at hn
      obtain ⟨hplain, hweight⟩ := routine.plain_of_derived hm hn.1
      obtain ⟨hall, hweights⟩ := ih hms hn.2
      refine ⟨forall_mem_cons.mpr ⟨hplain, hall⟩, ?_⟩
      simp only [map_cons, sum_cons, length_append]
      omega

theorem ClassDecl.plain_of_derived (c : ClassDecl) (h : ClassOf ts c.clause) (hn : Token.Named ts) :
    c.Plain ∧ c.weight ≤ ts.length := by
  obtain ⟨_, name, super, fields, methods, _, _⟩ := c
  rw [ClassDecl.clause] at h
  cases h with
  | mk hc hi hes hps hl hms hr =>
    simp only [named_append] at hn
    obtain ⟨hfields, hlen⟩ := hps.params_plain hn.2.2.2.1
    obtain ⟨hmethods, hweight⟩ := methods_plain_of_derived methods hms hn.2.2.2.2.2.1
    refine ⟨⟨forall_mem_map.mp hfields, hmethods⟩, ?_⟩
    rw [length_map] at hlen
    simp only [ClassDecl.weight, length_append, hc.length]
    omega

theorem classes_plain_of_derived (cs : List ClassDecl)
    (h : Many ClassOf ts (cs.map ClassDecl.clause)) (hn : Token.Named ts) :
    (∀ c ∈ cs, c.Plain) ∧ (cs.map ClassDecl.weight).sum ≤ ts.length := by
  induction cs generalizing ts with
  | nil => exact ⟨nofun, Nat.zero_le _⟩
  | cons c cs ih =>
    cases h with
    | cons hc hcs =>
      simp only [named_append] at hn
      obtain ⟨hplain, hweight⟩ := c.plain_of_derived hc hn.1
      obtain ⟨hall, hweights⟩ := ih hcs hn.2
      refine ⟨forall_mem_cons.mpr ⟨hplain, hall⟩, ?_⟩
      simp only [map_cons, sum_cons, length_append]
      omega

/-! ### Programs -/

namespace Program

variable {src : Text} {p : Program}

/-- A program that the grammar derives from tokens is plain, and has no more weight than there are
tokens. -/
theorem plain_of_derived {ts : List Token} (h : ScriptOf ts p.script) (hn : Token.Named ts) :
    p.Plain ∧ p.weight ≤ ts.length := by
  obtain ⟨_, classes, decls, body⟩ := p
  obtain ⟨hglobals, -, -⟩ := h
  simp only [named_append] at hn
  generalize hclasses : classes.map ClassDecl.clause = cs at hglobals
  generalize hdecls : clauses decls = ds at hglobals
  cases hglobals with
  | none =>
    obtain rfl : classes = [] := map_eq_nil_iff.mp hclasses
    cases decls with
    | nil => exact ⟨⟨nofun, trivial⟩, Nat.zero_le _⟩
    | cons => cases hdecls
  | some hl hcs hds hne hi =>
    subst hclasses hdecls
    simp only [named_append] at hn
    obtain ⟨hclasses, hweight⟩ := classes_plain_of_derived classes hcs hn.1.2.1
    obtain ⟨hdecls, hweights⟩ := decls_plain_of_derived decls hds hn.1.2.2.1
    refine ⟨⟨hclasses, hdecls⟩, ?_⟩
    simp only [Program.weight, length_append]
    omega

/-- The tokens of a text are no more than its bytes, so the weight of a program is bounded by the
length of its text. -/
theorem reads_of_parse (h : parse src = .ok p) : p.Plain ∧ p.weight ≤ src.length := by
  obtain ⟨p', ts, t, hp, hts, -, hscript, -⟩ | ⟨d, hd, -⟩ := parse_cases src
  · cases h.symm.trans hp
    have hnamed : Token.Named ts := by
      intro u hu
      refine (closed_scan src).named u ?_
      rw [hts]
      exact mem_append_left _ hu
    have hlen := length_scan_le src
    rw [hts, length_append, length_singleton] at hlen
    obtain ⟨hplain, hweight⟩ := plain_of_derived hscript hnamed
    exact ⟨hplain, by omega⟩
  · cases h.symm.trans hd

/-- A parsed program is plain. -/
theorem plain_of_parse (h : parse src = .ok p) : p.Plain := (reads_of_parse h).1

/-- A parsed program declares no more names than its text has bytes. -/
theorem weight_le_of_parse (h : parse src = .ok p) : p.weight ≤ src.length := (reads_of_parse h).2

end Program

/-- What can be read off a successful computation. -/
theorem exists_ok_of_any {ε α : Type} {x : Except ε α} {q : α → Bool}
    (h : x.toOption.any q = true) : ∃ a, x = .ok a ∧ q a = true := by
  cases x with
  | error e => cases h
  | ok a => exact ⟨a, rfl, h⟩

end Foolscap
