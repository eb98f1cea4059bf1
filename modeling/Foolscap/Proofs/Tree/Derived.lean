import Foolscap.Proofs.Tree.Placed

/-!
# What is read is derived

Every reader of declarations consumes tokens from which the grammar derives what it returns, and
the nodes of what it returns are laid out over these tokens.  So a program that is parsed is
derived from the tokens of its text, with no expression missing and every node at its place.
-/

namespace Foolscap

open Grammar Token List

variable {ts : List Token}

/-- The name that a type holds is that of its token. -/
theorem Grammar.TypeOf.names {ann : Annotation} (h : TypeOf ts ann.ty) :
    (Token.names ts).map Token.literal = ann.mentions.map Mention.name := by
  obtain ⟨_, _⟩ := ann
  cases h with
  | int hm | bool hm => rw [names_eq_nil hm.nameless]; rfl
  | ref hn => exact hn.names

/-- Tokens that neither start nor end with an identifier. -/
structure Token.Bordered (ts : List Token) : Prop where
  first : ∀ t ∈ ts.head?, t.kind ≠ .identifier
  last : ∀ t ∈ ts.getLast?, t.kind ≠ .identifier

namespace Token.Bordered

variable {ts us : List Token}

theorem nil : Bordered [] := ⟨nofun, nofun⟩

theorem append (h : Bordered ts) (h' : Bordered us) : Bordered (ts ++ us) := by
  constructor
  · cases ts with
    | nil => exact h'.first
    | cons t ts => exact h.first
  · intro t ht
    rw [List.getLast?_append] at ht
    cases hlast : us.getLast? with
    | none =>
      rw [hlast, Option.none_or] at ht
      exact h.last t ht
    | some u =>
      rw [hlast, Option.some_or] at ht
      cases ht
      exact h'.last _ hlast

/-- Tokens from one mark to another. -/
theorem of_marks {k k' : TokenKind} {o o' : List Token} (ho : Mark k o) (ho' : Mark k' o')
    (mid : List Token) (hk : k ≠ .identifier := by simp) (hk' : k' ≠ .identifier := by simp) :
    Bordered (o ++ (mid ++ o')) := by
  obtain ⟨t, rfl, rfl⟩ := ho
  obtain ⟨t', rfl, rfl⟩ := ho'
  constructor
  · rintro _ ⟨⟩
    exact hk
  · rw [← append_assoc, List.getLast?_concat]
    rintro _ ⟨⟩
    exact hk'

end Token.Bordered

/-- Nodes that follow each other with nothing between them. -/
theorem Spread.next {us : List Token} {ns ms : List Node} (h : Spread [] ts ns) (ht : Bordered ts)
    (h' : Spread [] us ms) (hu : Bordered us) : Spread [] (ts ++ us) (ns ++ ms) := by
  have hbefore : ∀ t ∈ (ts ++ []).getLast?, t.kind ≠ .identifier := by
    rw [append_nil]
    exact ht.last
  exact Spread.join h h' hbefore hu.first (.inr nofun)

namespace Parser

/-! ### Types and parameters -/

section

variable {done : List Token} {s : TokenInput}

theorem annotation_consumes (hs : Consumed done s) :
    Consumes annotation done s fun ts ann => TypeOf ts ann.ty := by
  rw [Parser.annotation, consumes_current]
  split
  · next hkind =>
    exact .advance hs hkind rfl fun s₁ hs₁ _ hmark => .pure hs₁ (.int hmark)
  · next hkind =>
    exact .advance hs hkind rfl fun s₁ hs₁ _ hmark => .pure hs₁ (.bool hmark)
  · next hkind =>
    exact .advance hs hkind rfl fun s₁ hs₁ _ _ => .pure hs₁ (.ref ⟨_, rfl, hkind, rfl⟩)
  · exact .fail hs nofun

/-- A parameter without its places. -/
def bareParam (p : Param) : Text × Ty := (p.name, p.annotation.ty)

/-- A way to take a parameter for a node. -/
structure Leafy (g : Param → Node) : Prop where
  span : ∀ p, (g p).span = p.span
  mentions : ∀ p, (g p).mentions = ⟨.declared, p.name⟩ :: p.annotation.mentions
  below : ∀ p, (g p).below = []
  expr : ∀ p e, g p ≠ .expr e

variable {name : Text} {i ts us : List Token} {g : Param → Node} {fuel : Nat} {ds : List Decl}
  {c l es gs : List Token} {ms : List Node} {r : Routine} {t : Token} {super : Option Text}
  {cs : List ClassDecl}

/-- The tokens of a name and its type. -/
theorem names_typed {ann : Annotation} (hi : Name name i) (hc : Mark .colon c)
    (hts : TypeOf ts ann.ty) :
    (names (i ++ (c ++ ts))).map Token.literal =
      (⟨.declared, name⟩ :: ann.mentions : List Mention).map Mention.name := by
  rw [names_append, names_append, names_eq_nil hc.nameless, nil_append, map_append,
    hi.names, hts.names]
  rfl

/-- A parameter fills its tokens. -/
theorem Leafy.laid (hg : Leafy g) {p : Param} {own : List Token} (hne : own ≠ [])
    (hspan : p.span = spanOf own) (hheld : (names own).map Token.literal =
      (⟨.declared, p.name⟩ :: p.annotation.mentions : List Mention).map Mention.name) :
    Spread [] own [g p] := by
  have htree : Spread [] own (g p :: (g p).below) := by
    refine .tree (l := own) ⟨hne, (hg.span p).trans hspan, ?_⟩ hne (by rw [hg.mentions, hheld]) ?_
    · exact fun e he => absurd he (hg.expr p e)
    · rw [hg.below]
      exact .loose own
  rwa [hg.below] at htree

/-- Parameters, or the fields of a class: `g` is the node that is made of each of them. -/
theorem someParams_consumes (hg : Leafy g) (hs : Consumed done s) (hfuel : s.tokens.length ≤ fuel) :
    Consumes (someParams fuel) done s fun ts ps => Separated ParamOf ts (ps.map bareParam) ∧
      ∃ l, Nameless l ∧ Spread l ts (ps.map g) := by
  induction fuel generalizing done s with
  | zero =>
    have := Legible.length_pos hs.legible
    omega
  | succ fuel ih =>
    rw [someParams, consumes_here]
    refine .bind (identifier_consumes hs) ?_
    rintro i name s₁ hs₁ _ ⟨rfl, hi⟩
    refine .expect hs₁ rfl fun c s₂ hs₂ _ hc =>
      .bind (annotation_consumes hs₂) fun ts ann s₃ hs₃ _ hann => ?_
    rw [consumes_spanFrom, consumes_at?]
    rw [append_assoc, append_assoc] at hs₃
    have hone : Spread [] ([s.first] ++ (c ++ ts))
        [g ⟨⟨s.first.pos, s₃.lastStop⟩, name, ann⟩] :=
      hg.laid (cons_ne_nil _ _) hs₃.span_eq (names_typed hi hc hann)
    rw [append_assoc, append_assoc]
    split
    · next hcomma =>
      refine .advance hs₃ (of_decide_eq_true hcomma) rfl fun s₄ hs₄ _ hmark =>
        .bind (ih hs₄ (by omega)) fun us ps s₅ hs₅ _ hps => .pure hs₅ ?_
      obtain ⟨hps, l, hl, hlaid⟩ := hps
      rw [append_nil]
      constructor
      · have hmore := Separated.more (.mk hi hc hann) hmark hps
        simp only [append_assoc] at hmore
        exact hmore
      · refine ⟨_, hmark.nameless.append hl, ?_⟩
        have hall := hone.between hmark.nameless hmark.ne_nil hl hlaid
        simpa only [append_assoc, nil_append, map_cons, cons_append] using hall
    · refine .pure hs₃ ?_
      simp only [append_nil]
      exact ⟨.one (.mk hi hc hann), [], .nil, hone⟩

/-- Parameters in parentheses, up to the second one. -/
theorem params_consumes (hg : Leafy g) (hs : Consumed done s) :
    Consumes params done s fun ts ps => Enclosed ParamOf ts (ps.map bareParam) ∧
      ∃ o us r l, ts = o ++ (us ++ r) ∧ Mark .lparen o ∧ Mark .rparen r ∧ Nameless l ∧
        Spread l us (ps.map g) := by
  rw [params]
  refine .expect hs rfl fun o s₁ hs₁ _ ho => ?_
  rw [consumes_at?]
  split
  · rw [consumes_pure]
    refine .expect hs₁ rfl fun r s₃ hs₃ _ hr => .pure hs₃ ?_
    rw [append_nil]
    exact ⟨.none ho hr, o, [], r, [], rfl, ho, hr, .nil, .loose []⟩
  · rw [consumes_fuelLeft]
    refine .bind (someParams_consumes hg hs₁ (by omega)) fun us ps s₂ hs₂ _ hps =>
      .expect hs₂ rfl fun r s₃ hs₃ _ hr => .pure hs₃ ?_
    obtain ⟨hps, l, hl, hlaid⟩ := hps
    rw [append_nil]
    exact ⟨.some ho hps hr, o, us, r, l, rfl, ho, hr, hl, hlaid⟩

/-! ### Declarations -/

/-- The nodes of declarations are laid out over their tokens. -/
def Declared (ts : List Token) (ns : List Node) : Prop := Bordered ts ∧ Spread [] ts ns

theorem Declared.nil : Declared [] [] := ⟨.nil, .loose []⟩

theorem Declared.append {ns : List Node} (h : Declared ts ns) (h' : Declared us ms) :
    Declared (ts ++ us) (ns ++ ms) :=
  ⟨h.1.append h'.1, h.2.next h.1 h'.2 h'.1⟩

/-- A declaration was read. -/
structure DeclRead (ts : List Token) (d : Decl) : Prop where
  derives : DeclOf ts d.clause
  whole : d.Whole
  nonempty : 0 < ts.length
  laid : Declared ts (d.walk fun _ => true)

/-- Declarations were read. -/
structure DeclsRead (ts : List Token) (ds : List Decl) : Prop where
  derives : Many DeclOf ts (clauses ds)
  whole : DeclsWhole ds
  laid : Declared ts (walkDecls (fun _ => true) ds)

theorem DeclsRead.cons {d : Decl} (h : DeclRead ts d) (h' : DeclsRead us ds) :
    DeclsRead (ts ++ us) (d :: ds) :=
  ⟨.cons h.derives h'.derives, ⟨h.whole, h'.whole⟩, h.laid.append h'.laid⟩

/-- A variable.  Its own tokens hold its name and the class that its type may name. -/
theorem varDecl_consumes (hs : Consumed done s) :
    Consumes varDecl done s fun ts v => DeclRead ts (.var v) := by
  rw [varDecl, consumes_here]
  refine .bind (expect_consumes _ hs rfl) ?_
  rintro o - s₁ hs₁ _ ⟨rfl, hkind⟩
  refine .identifier hs₁ fun i name s₂ hs₂ _ hi => .expect hs₂ rfl fun c s₃ hs₃ _ hc =>
    .bind (annotation_consumes hs₃) fun ts ann s₄ hs₄ _ hann =>
    .expect hs₄ rfl fun a s₅ hs₅ _ ha => .bind (expr_consumes hs₅) fun us value s₆ hs₆ _ hvalue =>
    .expect hs₆ rfl fun sc s₇ hs₇ _ hsc => ?_
  rw [consumes_spanFrom]
  refine .pure hs₇ ?_
  simp only [append_assoc, append_nil] at hs₇ ⊢
  have hmark : Mark .kwVar [s.first] := ⟨_, rfl, hkind⟩
  obtain ⟨l, hl, hlaid⟩ := hvalue.laid
  refine ⟨.var hmark hi hc hann ha hvalue.derives hsc, hvalue.whole, by simp, ?_, ?_⟩
  · have hborder := Bordered.of_marks hmark hsc (i ++ (c ++ (ts ++ (a ++ us))))
    simpa only [append_assoc] using hborder
  · have hall := (hlaid.close hsc.nameless hsc.ne_nil).after
      ([s.first] ++ (i ++ (c ++ ts))) ha.nameless ha.ne_nil
    simp only [append_assoc] at hall
    refine .tree (n := .var ⟨_, name, ann, value⟩) (.of_ne (cons_ne_nil _ _) hs₇.span_eq)
      (l := [s.first] ++ (i ++ (c ++ (ts ++ (a ++ (l ++ sc))))))
      (cons_ne_nil _ _) ?_ hall
    have hnames := names_typed hi hc hann
    simp only [names_append, names_eq_nil hmark.nameless, names_eq_nil hc.nameless,
      names_eq_nil ha.nameless, names_eq_nil hl, names_eq_nil hsc.nameless, nil_append,
      append_nil] at hnames ⊢
    exact hnames

/-- A function or method was read: what is inside is laid out over its tokens. -/
structure RoutineRead (ts : List Token) (r : Routine) : Prop where
  derives : RoutineOf ts r.clause
  whole : r.Whole
  nonempty : 0 < ts.length
  bordered : Bordered ts
  span : r.span = spanOf ts
  laid : ∃ l, l ≠ [] ∧ Spread l ts (r.walkInside fun _ => true) ∧
    (names l).map Token.literal = (⟨.declared, r.name⟩ :: r.ret.mentions : List Mention).map
      Mention.name

/-- A function or method as a node. -/
theorem RoutineRead.declared (h : RoutineRead ts r) {n : Node} (hspan : n.span = r.span)
    (hmentions : n.mentions = ⟨.declared, r.name⟩ :: r.ret.mentions)
    (hbelow : n.below = r.walkInside fun _ => true) (hexpr : ∀ e, n ≠ .expr e := by simp) :
    Declared ts (n :: r.walkInside fun _ => true) := by
  obtain ⟨l, hl, hlaid, hheld⟩ := h.laid
  refine ⟨h.bordered, ?_⟩
  rw [← hbelow] at hlaid ⊢
  exact .tree (.of_ne (ne_nil_of_length_pos h.nonempty) (hspan.trans h.span) hexpr) hl
    (by rw [hmentions, hheld]) hlaid

theorem RoutineRead.decl (h : RoutineRead ts r) : DeclRead ts (.fn r) :=
  ⟨.fn h.derives, h.whole, h.nonempty, h.declared (n := .fn r) rfl rfl rfl⟩

theorem leafy_par : Leafy Node.par := ⟨fun _ => rfl, fun _ => rfl, fun _ => rfl, by simp⟩

/-- The local declarations of a function or method, if there are any. -/
def LocalsRead (ls : List Token) (ds : List Decl) : Prop :=
  (ls = [] ∧ ds = []) ∨ ∃ o ts i, ls = o ++ (ts ++ i) ∧ Mark .kwLet o ∧ Mark .kwIn i ∧ ds ≠ [] ∧
    DeclsRead ts ds

namespace LocalsRead

variable {ls : List Token} {ds : List Decl}

theorem derives (h : LocalsRead ls ds) : LocalsOf ls (clauses ds) := by
  rcases h with ⟨rfl, rfl⟩ | ⟨o, ts, i, rfl, ho, hi, hne, hds⟩
  · exact .none
  · refine .some ho hds.derives ?_ hi
    cases ds with
    | nil => exact absurd rfl hne
    | cons d ds => exact cons_ne_nil _ _

theorem whole (h : LocalsRead ls ds) : DeclsWhole ds := by
  rcases h with ⟨rfl, rfl⟩ | ⟨o, ts, i, rfl, ho, hi, hne, hds⟩
  · trivial
  · exact hds.whole

/-- Parameters, local declarations and a body. -/
theorem inside (h : LocalsRead ls ds) {l l' us r vs : List Token} {ns ms : List Node}
    (hl : Nameless l) (hlaid : Spread l us ns) (hr : Mark .rparen r) (hl' : Nameless l')
    (hlaid' : Spread l' vs ms) : ∃ l'', Nameless l'' ∧
      Spread l'' (us ++ (r ++ (ls ++ vs))) (ns ++ walkDecls (fun _ => true) ds ++ ms) := by
  rcases h with ⟨rfl, rfl⟩ | ⟨o, ts, i, rfl, ho, hi, -, hds⟩
  · refine ⟨_, hl.append (hr.nameless.append hl'), ?_⟩
    rw [walkDecls, append_nil]
    exact hlaid.between hr.nameless hr.ne_nil hl' hlaid'
  · have hsep : Nameless (r ++ o) := hr.nameless.append ho.nameless
    have hl₁ := hi.nameless.append hl'
    refine ⟨_, hl.append (hsep.append hl₁), ?_⟩
    have hbody := hds.laid.2.between hi.nameless hi.ne_nil hl' hlaid'
    have hall := hlaid.between hsep (append_ne_nil_of_left_ne_nil hr.ne_nil _) hl₁ hbody
    simpa only [append_assoc, nil_append] using hall

end LocalsRead

/-- The end of a routine, given its parts before the body. -/
theorem routineEnd_consumes (done : List Token) {ret : Annotation} {ps : List Param}
    {o r ls : List Token} (hf : t.kind = .kwFun) (hi : Name name i) (hc : Mark .colon c)
    (hret : TypeOf ts ret.ty) (hps : Enclosed ParamOf (o ++ (us ++ r)) (ps.map bareParam))
    (ho : Mark .lparen o) (hr : Mark .rparen r) (hl : Nameless l)
    (hlaid : Spread l us (ps.map Node.par)) (hds : LocalsRead ls ds)
    (hs : Consumed (done ++ ([t] ++ (i ++ (c ++ (ts ++ (o ++ (us ++ (r ++ ls)))))))) s) :
    Consumes (do
      let body ← expr
      expect .semicolon
      return (⟨← spanFrom t.pos, name, ret, ps, ds, body⟩ : Routine))
      (done ++ ([t] ++ (i ++ (c ++ (ts ++ (o ++ (us ++ (r ++ ls)))))))) s fun vs routine =>
        RoutineRead ([t] ++ (i ++ (c ++ (ts ++ (o ++ (us ++ (r ++ (ls ++ vs)))))))) routine := by
  refine .bind (expr_consumes hs) fun bs body s₁ hs₁ _ hbody =>
    .expect hs₁ rfl fun sc s₂ hs₂ _ hsc => ?_
  rw [consumes_spanFrom]
  refine .pure hs₂ ?_
  simp only [append_assoc, append_nil] at hs₂ ⊢
  have hmark : Mark .kwFun [t] := ⟨t, rfl, hf⟩
  obtain ⟨l', hl', hlaid'⟩ := hbody.laid
  obtain ⟨l'', hl'', hinside⟩ := hds.inside hl hlaid hr (hl'.append hsc.nameless)
    (hlaid'.close hsc.nameless hsc.ne_nil)
  refine ⟨?_, ⟨hds.whole, hbody.whole⟩, by simp, ?_, hs₂.span_eq,
    [t] ++ (i ++ (c ++ (ts ++ (o ++ l'')))), cons_ne_nil _ _, ?_, ?_⟩
  · have hroutine := RoutineOf.mk hmark hi hc hret hps hds.derives hbody.derives hsc
    simp only [append_assoc] at hroutine
    exact hroutine
  · have hborder := Bordered.of_marks hmark hsc
      (i ++ (c ++ (ts ++ (o ++ (us ++ (r ++ (ls ++ bs)))))))
    simpa only [append_assoc] using hborder
  · have hall := hinside.after ([t] ++ (i ++ (c ++ ts))) ho.nameless ho.ne_nil
    rw [Routine.walkInside]
    simpa only [append_assoc] using hall
  · have hnames := names_typed hi hc hret
    simp only [names_append, names_eq_nil hmark.nameless, names_eq_nil hc.nameless,
      names_eq_nil ho.nameless, names_eq_nil hl'', nil_append, append_nil] at hnames ⊢
    exact hnames

/-- What the readers of declarations consume with some fuel. -/
structure DeclsConsume (fuel : Nat) : Prop where
  decls : ∀ {done s}, Consumed done s → s.tokens.length ≤ fuel →
    Consumes (declsFor fuel) done s DeclsRead
  routine : ∀ {done s}, Consumed done s → (s.tokens.headD default).kind = .kwFun →
    s.tokens.length ≤ fuel + 1 → Consumes (routineFor fuel) done s RoutineRead

namespace DeclsConsume

variable {fuel : Nat}

theorem decls_succ (ih : DeclsConsume fuel) (hs : Consumed done s)
    (hfuel : s.tokens.length ≤ fuel + 1) : Consumes (declsFor (fuel + 1)) done s DeclsRead := by
  rw [declsFor, consumes_current]
  split
  · refine .bind (varDecl_consumes hs) fun ts v s₁ hs₁ hlen hv => ?_
    have hpos := hv.nonempty
    refine .bind (ih.decls hs₁ (by omega)) fun us ds s₂ hs₂ _ hds => .pure hs₂ ?_
    rw [append_nil]
    exact .cons hv hds
  · next hkind =>
    refine .bind (ih.routine hs hkind hfuel) fun ts r s₁ hs₁ hlen hr => ?_
    have hpos := hr.nonempty
    refine .bind (ih.decls hs₁ (by omega)) fun us ds s₂ hs₂ _ hds => .pure hs₂ ?_
    rw [append_nil]
    exact .cons hr.decl hds
  · exact .pure hs ⟨.nil, trivial, .nil⟩

/-- A function or a method.  Its declarations are nested, so the induction is on fuel, together
with the one for declarations. -/
theorem routine_succ (ih : DeclsConsume fuel) (hs : Consumed done s)
    (hfuel : s.tokens.length ≤ fuel + 1 + 1) :
    Consumes (routineFor (fuel + 1)) done s RoutineRead := by
  rw [routineFor, consumes_here]
  refine .bind (expect_consumes _ hs rfl) ?_
  rintro - - s₁ hs₁ hlen ⟨rfl, hf⟩
  refine .identifier hs₁ fun i name s₂ hs₂ _ hi => .expect hs₂ rfl fun c s₃ hs₃ _ hc =>
    .bind (annotation_consumes hs₃) fun ts ret s₄ hs₄ _ hret =>
    .bind (params_consumes leafy_par hs₄) ?_
  rintro - ps s₅ hs₅ _ ⟨hps, o, us, r, l, rfl, ho, hr, hl, hlaid⟩
  rw [consumes_at?]
  split
  · next hlet =>
    refine .advance hs₅ (of_decide_eq_true hlet) rfl fun s₆ hs₆ _ hmark =>
      .bind (ih.decls hs₆ (by omega)) fun vs ds s₇ hs₇ _ hds => ?_
    rw [consumes_current]
    dsimp only
    split
    · exact .bind (Q := fun _ _ => False) (.fail hs₇ (by simp)) (by simp)
    · next hne =>
      refine .expect hs₇ rfl fun n s₈ hs₈ _ hn => ?_
      have hlocals : LocalsRead ([s₅.first] ++ (vs ++ n)) ds := by
        refine .inr ⟨_, _, _, rfl, hmark, hn, ?_, hds⟩
        rintro rfl
        exact hne rfl
      rw [consumes_pure]
      simp only [append_assoc] at hs₈ ⊢
      have hend := routineEnd_consumes done hf hi hc hret hps ho hr hl hlaid hlocals hs₈
      simpa only [append_assoc] using hend
  · rw [consumes_pure]
    simp only [append_assoc] at hs₅ ⊢
    have hend := routineEnd_consumes done (s := s₅) hf hi hc hret hps ho hr hl hlaid
      (.inl ⟨rfl, rfl⟩) (by simpa only [append_nil] using hs₅)
    simpa only [append_nil, nil_append] using hend

end DeclsConsume

/-- Declarations and routines, by induction on the fuel that both are given. -/
theorem declsConsume (fuel : Nat) : DeclsConsume fuel := by
  induction fuel with
  | zero =>
    constructor
    · intro done s hs hfuel
      have := Legible.length_pos hs.legible
      omega
    · intro done s hs hkind hfuel
      -- The only token left would be the last one.
      obtain ⟨t, u, rest, hts, -⟩ := Legible.exists_cons hs.legible (hkind ▸ rfl)
      rw [hts] at hfuel
      simp at hfuel
  | succ fuel ih => exact ⟨ih.decls_succ, fun hs _ hfuel => ih.routine_succ hs hfuel⟩

theorem decls_consumes (hs : Consumed done s) : Consumes decls done s DeclsRead := by
  rw [decls, consumes_fuelLeft]
  exact (declsConsume _).decls hs (by omega)

/-! ### Classes and programs -/

/-- Methods were read. -/
structure MethodsRead (ts : List Token) (ms : List Method) : Prop where
  derives : Many RoutineOf ts (methodClauses ms)
  whole : ∀ m ∈ ms, m.routine.Whole
  laid : Declared ts (walkMethods (fun _ => true) ms)

theorem methodsFor_consumes (hs : Consumed done s) (hfuel : s.tokens.length ≤ fuel) :
    Consumes (methodsFor fuel) done s MethodsRead := by
  induction fuel generalizing done s with
  | zero =>
    have := Legible.length_pos hs.legible
    omega
  | succ fuel ih =>
    rw [methodsFor, consumes_at?]
    split
    · next hkind =>
      rw [consumes_fuelLeft]
      refine .bind ((declsConsume _).routine hs (of_decide_eq_true hkind) (by omega))
        fun ts r s₁ hs₁ hlen hr => ?_
      have hpos := hr.nonempty
      refine .bind (ih hs₁ (by omega)) fun us ms s₂ hs₂ _ hms => .pure hs₂ ?_
      rw [append_nil]
      exact ⟨.cons hr.derives hms.derives, forall_mem_cons.mpr ⟨hr.whole, hms.whole⟩,
        (hr.declared (n := .method ⟨r, 0⟩) rfl rfl rfl).append hms.laid⟩
    · exact .pure hs ⟨.nil, by simp, .nil⟩

/-- The field that a parameter of a class declares. -/
def fieldOf (p : Param) : Field := ⟨p.span, p.name, p.annotation, 0⟩

theorem leafy_field : Leafy (Node.field ∘ fieldOf) :=
  ⟨fun _ => rfl, fun _ => rfl, fun _ => rfl, by simp⟩

/-- A class was read. -/
structure ClassRead (ts : List Token) (c : ClassDecl) : Prop where
  derives : ClassOf ts c.clause
  whole : ∀ m ∈ c.methods, m.routine.Whole
  nonempty : 0 < ts.length
  laid : Declared ts (c.walk fun _ => true)

/-- The name of a superclass is that of its token. -/
theorem names_super (h : SuperOf es super) : (names es).map Token.literal = super.toList := by
  cases h with
  | none => rfl
  | some he hn =>
    rw [names_append, names_eq_nil he.nameless, nil_append, hn.names]
    rfl

/-- The end of a class, given its parts before the fields. -/
theorem classEnd_consumes (done : List Token) (hc : t.kind = .kwClass) (hi : Name name i)
    (hes : SuperOf es super) (hs : Consumed (done ++ ([t] ++ (i ++ es))) s) :
    Consumes (do
      let ps ← params
      expect .lbrace
      let methods ← methodsFor (← fuelLeft)
      expect .rbrace
      let fields := ps.map fun p => (⟨p.span, p.name, p.annotation, 0⟩ : Field)
      return (⟨← spanFrom t.pos, name, super, fields, methods, none, none⟩ : ClassDecl))
      (done ++ ([t] ++ (i ++ es))) s fun ts c => ClassRead ([t] ++ (i ++ (es ++ ts))) c := by
  refine .bind (params_consumes leafy_field hs) ?_
  rintro - ps s₁ hs₁ _ ⟨hparams, o, us, r, l, rfl, ho, hr, hl, hps⟩
  refine .expect hs₁ rfl fun b s₂ hs₂ _ hb => ?_
  rw [consumes_fuelLeft]
  refine .bind (methodsFor_consumes hs₂ (by omega)) fun ms methods s₃ hs₃ _ hms =>
    .expect hs₃ rfl fun e s₄ hs₄ _ he => ?_
  dsimp only
  rw [consumes_spanFrom]
  refine .pure hs₄ ?_
  simp only [append_assoc, append_nil] at hs₄ ⊢
  have hmark : Mark .kwClass [t] := ⟨t, rfl, hc⟩
  have hsep : Nameless (r ++ b) := hr.nameless.append hb.nameless
  have hinside := hps.between hsep (append_ne_nil_of_left_ne_nil hr.ne_nil _)
    he.nameless (hms.laid.2.close he.nameless he.ne_nil)
  refine ⟨?_, hms.whole, by simp, ?_, ?_⟩
  · rw [ClassDecl.clause, map_map]
    have hclass := ClassOf.mk hmark hi hes hparams hb hms.derives he
    simp only [append_assoc] at hclass
    exact hclass
  · have hborder := Bordered.of_marks hmark he
      (i ++ (es ++ (o ++ (us ++ (r ++ (b ++ ms))))))
    simpa only [append_assoc] using hborder
  · have hall := hinside.after ([t] ++ (i ++ es)) ho.nameless ho.ne_nil
    simp only [append_assoc] at hall
    rw [ClassDecl.walk]
    refine .tree (n := .cls _) (.of_ne (cons_ne_nil t _) hs₄.span_eq)
      (l := [t] ++ (i ++ (es ++ (o ++ (l ++ (r ++ (b ++ e))))))) (cons_ne_nil _ _) ?_ ?_
    · simp only [names_append, names_eq_nil hmark.nameless, names_eq_nil ho.nameless,
        names_eq_nil hl, names_eq_nil hr.nameless, names_eq_nil hb.nameless,
        names_eq_nil he.nameless, nil_append, append_nil, map_append, hi.names,
        names_super hes]
      cases super <;> rfl
    · rw [Node.below, map_map]
      exact hall

theorem classDecl_consumes (hs : Consumed done s) : Consumes classDecl done s ClassRead := by
  rw [classDecl, consumes_here]
  refine .bind (expect_consumes _ hs rfl) ?_
  rintro - - s₁ hs₁ _ ⟨rfl, hc⟩
  refine .identifier hs₁ fun i name s₂ hs₂ _ hi => ?_
  rw [consumes_at?]
  dsimp only
  split
  · next hext =>
    refine .advance hs₂ (of_decide_eq_true hext) rfl fun s₃ hs₃ _ hmark => ?_
    have hsuper : Consumes (some <$> identifier) (done ++ [s.first] ++ i ++
        [s₂.first]) s₃ fun ts super =>
          SuperOf ([s₂.first] ++ ts) super := by
      refine .identifier hs₃ fun e super s₄ hs₄ _ he => .pure hs₄ ?_
      rw [append_nil]
      exact .some hmark he
    refine .bind hsuper fun es super s₄ hs₄ _ hes => ?_
    simp only [append_assoc] at hs₄ ⊢
    refine (classEnd_consumes done hc hi hes hs₄).mono fun ts c h => ?_
    simpa only [append_assoc] using h
  · rw [consumes_pure]
    simp only [append_assoc] at hs₂ ⊢
    have hend := classEnd_consumes done (s := s₂) hc hi .none
      (by simpa only [append_nil] using hs₂)
    simpa only [append_nil, nil_append] using hend

/-- Classes were read. -/
structure ClassesRead (ts : List Token) (cs : List ClassDecl) : Prop where
  derives : Many ClassOf ts (cs.map ClassDecl.clause)
  whole : ∀ c ∈ cs, ∀ m ∈ c.methods, m.routine.Whole
  laid : Declared ts (cs.flatMap (ClassDecl.walk fun _ => true))

theorem classesFor_consumes (hs : Consumed done s) (hfuel : s.tokens.length ≤ fuel) :
    Consumes (classesFor fuel) done s ClassesRead := by
  induction fuel generalizing done s with
  | zero =>
    have := Legible.length_pos hs.legible
    omega
  | succ fuel ih =>
    rw [classesFor, consumes_at?]
    split
    · refine .bind (classDecl_consumes hs) fun ts c s₁ hs₁ hlen hc => ?_
      have hpos := hc.nonempty
      refine .bind (ih hs₁ (by omega)) fun us cs s₂ hs₂ _ hcs => .pure hs₂ ?_
      rw [append_nil]
      exact ⟨.cons hc.derives hcs.derives, forall_mem_cons.mpr ⟨hc.whole, hcs.whole⟩,
        hc.laid.append hcs.laid⟩
    · exact .pure hs ⟨.nil, by simp, .nil⟩

/-- The declarations of a program were read. -/
structure GlobalsRead (gs : List Token) (cs : List ClassDecl) (ds : List Decl) : Prop where
  derives : GlobalsOf gs (cs.map ClassDecl.clause) (clauses ds)
  classes : ∀ c ∈ cs, ∀ m ∈ c.methods, m.routine.Whole
  decls : DeclsWhole ds
  laid : (gs = [] ∧ cs = [] ∧ ds = []) ∨ ∃ o ts i, gs = o ++ (ts ++ i) ∧ Mark .kwLet o ∧
    Mark .kwIn i ∧
    Spread [] ts (cs.flatMap (ClassDecl.walk fun _ => true) ++ walkDecls (fun _ => true) ds)

/-- The global declarations between `let` and `in`, of which there is at least one. -/
theorem letPart_consumes (hs : Consumed done s) (hlet : s.first.kind = .kwLet) :
    Consumes letPart done s fun ts p => GlobalsRead ts p.1 p.2 := by
  rw [letPart]
  refine .advance hs hlet rfl fun s₁ hs₁ _ hmark => ?_
  rw [consumes_fuelLeft]
  refine .bind (classesFor_consumes hs₁ (by omega)) fun cs classes s₂ hs₂ _ hcs =>
    .bind (decls_consumes hs₂) fun ts ds s₃ hs₃ _ hds => ?_
  rw [consumes_current]
  dsimp only
  split
  · exact .bind (Q := fun _ _ => False) (.fail hs₃ (by simp)) (by simp)
  · next hne =>
    refine .expect hs₃ rfl fun i s₄ hs₄ _ hi => .pure hs₄ ⟨?_, hcs.whole, hds.whole, .inr
      ⟨[s.first], cs ++ ts, i, ?_, hmark, hi, (hcs.laid.append hds.laid).2⟩⟩
    · rw [append_nil]
      refine .some hmark hcs.derives hds.derives ?_ hi
      rcases classes with _ | ⟨c, classes⟩
      · rcases ds with _ | ⟨d, ds⟩
        · exact absurd rfl hne
        · exact .inr nofun
      · exact .inl nofun
    · simp only [append_assoc, append_nil]

/-- The declarations of a program and its body. -/
theorem GlobalsRead.inside (h : GlobalsRead gs cs ds) (hl : Nameless l) (hne : l ≠ [])
    (hlaid : Spread l us ms) :
    ∃ l', Nameless l' ∧ l' ≠ [] ∧ Spread l' (gs ++ us)
      (cs.flatMap (ClassDecl.walk fun _ => true) ++ walkDecls (fun _ => true) ds ++ ms) := by
  rcases h.laid with ⟨rfl, rfl, rfl⟩ | ⟨o, ts, i, rfl, ho, hi, hns⟩
  · exact ⟨l, hl, hne, hlaid⟩
  · refine ⟨o ++ (i ++ l), ho.nameless.append (hi.nameless.append hl),
      append_ne_nil_of_left_ne_nil ho.ne_nil _, ?_⟩
    have hall := (hns.between hi.nameless hi.ne_nil hl hlaid).after [] ho.nameless ho.ne_nil
    simpa only [append_assoc, nil_append] using hall

/-- A program was read from all tokens up to the end of input. -/
structure ProgramRead (all ts : List Token) (p : Program) : Prop where
  derives : ScriptOf ts p.script
  whole : p.Whole
  laid : Spread [] ts p.nodes
  ends : ∃ t, all = ts ++ [t] ∧ t.kind = .eof

/-- The end of a program, given its declarations. -/
theorem programEnd_consumes {all : List Token} (hgs : GlobalsRead gs cs ds)
    (hall : all = gs ++ s.tokens) (hs : Consumed gs s) :
    Consumes (do
      let body ← expr
      expect .semicolon
      let t ← current
      if t.kind ≠ .eof then failAt t.pos (.afterEnd t)
      return (⟨← spanFrom (all.headD default).pos, cs, ds, body⟩ : Program)) gs s fun ts p =>
        ProgramRead all (gs ++ ts) p := by
  refine .bind_tokens (expr_consumes hs) fun bs body s₁ hs₁ hbs hbody =>
    .bind_tokens (expect_consumes _ hs₁ rfl) ?_
  rintro - - s₂ hs₂ hsc ⟨rfl, hkind⟩
  have hsemi : Mark .semicolon [s₁.first] := ⟨_, rfl, hkind⟩
  generalize [s₁.first] = sc at *
  rw [consumes_current]
  dsimp only
  split
  · exact .bind (Q := fun _ _ => False) (.fail hs₂ (by simp)) (by simp)
  · next heof =>
    obtain ⟨t, ht, heof⟩ := Legible.eq_singleton hs₂.legible (not_not.mp heof)
    have hall' : all = (gs ++ (bs ++ sc)) ++ [t] := by
      rw [hall, hbs, hsc, ht]
      simp only [append_assoc]
    rw [consumes_spanFrom]
    refine .pure hs₂ ?_
    rw [append_nil]
    refine ⟨.mk hgs.derives hbody.derives hsemi, ⟨hgs.classes, hgs.decls, hbody.whole⟩, ?_,
      t, hall', heof⟩
    obtain ⟨l, hl, hlaid⟩ := hbody.laid
    obtain ⟨l', hl', hne, hinside⟩ := hgs.inside (hl.append hsemi.nameless)
      (append_ne_nil_of_right_ne_nil _ hsemi.ne_nil)
      (hlaid.close hsemi.nameless hsemi.ne_nil)
    have hown : gs ++ (bs ++ sc) ≠ [] := append_ne_nil_of_right_ne_nil _
      (append_ne_nil_of_right_ne_nil _ hsemi.ne_nil)
    have hstart : all.headD default = (gs ++ (bs ++ sc)).headD default := by
      rw [hall']
      cases hfirst : gs ++ (bs ++ sc) with
      | nil => exact absurd hfirst hown
      | cons first rest => rfl
    rw [append_assoc] at hs₂
    have hspan : Span.mk (all.headD default).pos s₂.lastStop = spanOf (gs ++ (bs ++ sc)) := by
      rw [hstart]
      exact (show Consumed ([] ++ (gs ++ (bs ++ sc))) s₂ from hs₂).span_eq hown
    rw [Program.nodes_eq]
    refine .tree (.of_ne hown hspan) hne ?_ hinside
    rw [names_eq_nil hl']
    rfl

/-- A program takes all tokens up to the end of input, and its nodes are laid out over them. -/
theorem program_consumes (hs : Consumed [] s) : Consumes program [] s (ProgramRead s.tokens) := by
  have hlexical : Consumes checkLexical [] s fun ts _ => ts = [] := by
    rw [checkLexical, consumes_current]
    split
    · exact .fail hs nofun
    · exact .pure hs rfl
  rw [program]
  refine .bind_tokens hlexical ?_
  rintro - - s₁ hs₁ hts rfl
  rw [hts]
  simp only [nil_append]
  rw [consumes_here, consumes_at?]
  split
  · next hlet =>
    refine .bind_tokens (letPart_consumes hs₁ (of_decide_eq_true hlet))
      fun gs p s₂ hs₂ hts₂ hp => ?_
    exact programEnd_consumes hp hts₂ hs₂
  · rw [consumes_pure]
    have hnone : DeclsWhole [] := trivial
    exact programEnd_consumes ⟨.none, nofun, hnone, .inl ⟨rfl, rfl, rfl⟩⟩ rfl hs₁

end

end Parser

/-! ### Parsed programs -/

namespace Program

variable {src : Text} {p : Program}

/-- What the parser makes of a text: it reads a program from all tokens, or it fails at one of them,
but not for lack of fuel. -/
theorem parse_read (src : Text) :
    (∃ p ts, parse src = .ok p ∧ Parser.ProgramRead (scan src) ts p) ∨
      ∃ d, parse src = .error d ∧ Parser.IsMistake d ∧ Parser.IsAt (scan src) d := by
  have h := Parser.program_consumes (s := ⟨scan src, default⟩) ⟨legible_scan src, rfl⟩
  rw [parse, ofTokens]
  unfold Parser.Consumes at h
  cases hrun : Parser.program.run ⟨scan src, default⟩ with
  | error d =>
    rw [hrun] at h
    exact .inr ⟨d, rfl, h⟩
  | ok r =>
    rw [hrun] at h
    obtain ⟨ts, -, -, hread⟩ := h
    exact .inl ⟨r.1, ts, rfl, hread⟩

/-- What the parser does with a text: it reads a program that the grammar derives, or it fails, but
not for lack of fuel. -/
theorem parse_cases (src : Text) :
    (∃ p ts t, parse src = .ok p ∧ scan src = ts ++ [t] ∧ t.kind = .eof ∧
        ScriptOf ts p.script ∧ p.Whole) ∨
      ∃ d, parse src = .error d ∧ Parser.IsMistake d := by
  obtain ⟨p, ts, hp, hread⟩ | ⟨d, hd, hmistake, -⟩ := parse_read src
  · obtain ⟨t, hts, ht⟩ := hread.ends
    exact .inl ⟨p, ts, t, hp, hts, ht, hread.derives, hread.whole⟩
  · exact .inr ⟨d, hd, hmistake⟩

/-- If the parser fails, it does so at a token. -/
theorem isAt_of_parse {d : Diagnostic} (hd : parse src = .error d) : Parser.IsAt (scan src) d := by
  obtain ⟨p, ts, hp, -⟩ | ⟨d', hd', -, hat⟩ := parse_read src
  · cases hd.symm.trans hp
  · cases hd.symm.trans hd'
    exact hat

/-- The parser has all the fuel it needs. -/
theorem cause_of_parse {d : Diagnostic} (hd : parse src = .error d) :
    d.cause ≠ .parsing .outOfFuel := by
  obtain ⟨p, ts, hp, -⟩ | ⟨d', hd', ⟨e, hcause, hfuel⟩, -⟩ := parse_read src
  · cases hd.symm.trans hp
  · cases hd.symm.trans hd'
    rw [hcause]
    exact fun h => hfuel (Cause.parsing.inj h)

/-- The nodes of a program are laid out over the tokens of its text. -/
theorem laid_of_parse (h : parse src = .ok p) :
    ∃ ts t, scan src = ts ++ [t] ∧ t.kind = .eof ∧ Spread [] ts p.nodes := by
  obtain ⟨p', ts, hp, hread⟩ | ⟨d, hd, -⟩ := parse_read src
  · cases h.symm.trans hp
    obtain ⟨t, hts, ht⟩ := hread.ends
    exact ⟨ts, t, hts, ht, hread.laid⟩
  · cases h.symm.trans hd

end Program

end Foolscap
