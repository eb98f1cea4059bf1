import Foolscap.Proofs.Tree.Consumed
import Foolscap.Proofs.Tree.Plain

/-!
# Where expressions are read

Every reader of expressions consumes tokens from which the grammar derives what it returns, and the
nodes of what it returns are laid out over these tokens.
-/

namespace Foolscap

open Grammar Token List

/-! ### More on the grammar -/

namespace Grammar

/-- Some operators and operands, and one more. -/
theorem OperandsOf.concat {level : Nat} {ts : List Token} {rest : List (BinaryOp × Phrase)}
    {k : TokenKind} {op : BinaryOp} {o us : List Token} {e : Phrase}
    (hop : (k, op) ∈ operators level) (ho : Mark k o) (he : ExprOf (level + 1) us e) :
    OperandsOf level ts rest → OperandsOf level (ts ++ (o ++ us)) (rest ++ [(op, e)])
  | .nil => by
    have hone := OperandsOf.cons hop ho he .nil
    rwa [append_nil] at hone
  | .cons hop' ho' he' hrest => by
    have hmore := OperandsOf.cons hop' ho' he' (hrest.concat hop ho he)
    simpa only [append_assoc, cons_append] using hmore

variable {level : Nat} {ts : List Token} {e : Phrase} {k : TokenKind}

/-- An expression of a level, an operator of the level and an operand. -/
theorem ExprOf.operator {op : BinaryOp} {o us : List Token} {e' : Phrase} (h : ExprOf level ts e)
    (hop : (k, op) ∈ operators level) (ho : Mark k o) (he' : ExprOf (level + 1) us e') :
    ExprOf level (ts ++ (o ++ us)) (.binary op e e') := by
  cases h with
  | factor => cases hop
  | @operation _ ts us' first rest hlevel hfirst hrest =>
    have hmore := ExprOf.operation hlevel hfirst (hrest.concat hop ho he')
    rw [leftAssociated, foldl_append] at hmore
    rw [append_assoc]
    exact hmore

theorem ExprOf.weaken (hlevel : level < 4) (h : ExprOf (level + 1) ts e) : ExprOf level ts e := by
  have hnone := ExprOf.operation hlevel h .nil
  rwa [append_nil] at hnone

/-- An expression of any level is an expression. -/
theorem ExprOf.weakest (hlevel : level ≤ 4) (h : ExprOf level ts e) : ExprOf 0 ts e := by
  induction level with
  | zero => exact h
  | succ level ih => exact ih (Nat.le_of_succ_le hlevel) (h.weaken hlevel)

theorem FactorOf.expr (h : FactorOf ts e) : ExprOf 0 ts e :=
  (ExprOf.factor h).weakest (Nat.le_refl 4)

theorem Mark.nameless (h : Mark k ts) (hk : k ≠ .identifier := by simp) : Nameless ts := by
  obtain ⟨t, rfl, rfl⟩ := h
  exact fun u hu => mem_singleton.mp hu ▸ hk

theorem Name.names {name : Text} (h : Name name ts) :
    (Token.names ts).map Token.literal = [name] := by
  obtain ⟨t, rfl, hkind, rfl⟩ := h
  rw [Token.names, filter_cons_of_pos (by simpa using hkind)]
  rfl

theorem Mark.ne_nil (h : Mark k ts) : ts ≠ [] := by
  obtain ⟨t, rfl, -⟩ := h
  exact cons_ne_nil _ _

end Grammar

/-! ### Layouts in sequence -/

namespace Spread

variable {l l' front sep ts us : List Token} {ns ms : List Node} {t : Token}

/-- Two layouts with tokens between them that are no identifiers. -/
theorem apart (h : Spread l ts ns) (hsep : Nameless sep) (hne : sep ≠ []) (h' : Spread l' us ms)
    (hor : ns = [] ∨ Nameless (sep ++ l')) :
    Spread (l ++ (sep ++ l')) (ts ++ (sep ++ us)) (ns ++ ms) := by
  refine .join h h' ?_ ?_ hor
  · intro t ht
    rw [List.getLast?_append, List.getLast?_eq_some_getLast hne, Option.some_or] at ht
    cases ht
    exact hsep _ (getLast_mem hne)
  · intro t ht
    rw [List.head?_append_of_ne_nil _ hne] at ht
    exact hsep t (mem_of_head? ht)

/-- Tokens in front of nodes; the last of them are no identifiers. -/
theorem after (h : Spread l ts ns) (front : List Token) (hsep : Nameless sep) (hne : sep ≠ []) :
    Spread (front ++ (sep ++ l)) (front ++ (sep ++ ts)) ns :=
  apart (.loose front) hsep hne h (.inl rfl)

/-- Nodes with tokens between them that are no identifiers. -/
theorem between (h : Spread l ts ns) (hsep : Nameless sep) (hne : sep ≠ []) (hl' : Nameless l')
    (h' : Spread l' us ms) : Spread (l ++ (sep ++ l')) (ts ++ (sep ++ us)) (ns ++ ms) :=
  h.apart hsep hne h' (.inr (hsep.append hl'))

/-- Nodes and tokens behind them that are no identifiers. -/
theorem close (h : Spread l ts ns) (hsep : Nameless sep) (hne : sep ≠ []) :
    Spread (l ++ sep) (ts ++ sep) ns := by
  have hall := h.between hsep hne .nil (.loose [])
  simpa only [append_nil] using hall

end Spread

/-! ### Expressions -/

namespace Parser

/-- The operators of a level are those that the parser takes there. -/
theorem mem_operators_iff {level : Nat} {k : TokenKind} {op : BinaryOp} :
    (k, op) ∈ operators level ↔ BinaryOp.ofToken? k = some op ∧ op.level = level := by
  constructor
  · have htable : ∀ p ∈ operators level, BinaryOp.ofToken? p.1 = some p.2 ∧ p.2.level = level := by
      match level with
      | 0 | 1 | 2 | 3 => decide
      | n + 4 => simp [operators]
    exact htable (k, op)
  · rintro ⟨htoken, rfl⟩
    unfold BinaryOp.ofToken? at htoken
    split at htoken <;> cases htoken <;> decide

/-- A binary operator is neither the last token nor a name. -/
theorem kind_of_ofToken? {k : TokenKind} {op : BinaryOp} (hop : BinaryOp.ofToken? k = some op) :
    k.isLast = false ∧ k ≠ .identifier := by
  cases k <;> first | exact ⟨rfl, by decide⟩ | cases hop

/-- An expression was read: the grammar derives it from the tokens, it has no bindings, no part of
it is missing, and its nodes are laid out over the tokens with nothing but marks left. -/
structure Sits (D : List Token → Phrase → Prop) (ts : List Token) (e : Expr) : Prop where
  derives : D ts e.phrase
  unbound : e.unbound = e
  whole : e.Whole
  nonempty : ts ≠ []
  laid : ∃ l, Nameless l ∧ Spread l ts (e.walk fun _ => true)

variable {e : Expr} {own : List Token}

theorem Sits.length_pos {D : List Token → Phrase → Prop} {ts : List Token} (h : Sits D ts e) :
    0 < ts.length := length_pos_of_ne_nil h.nonempty

section

variable (hspan : e.span? = some (spanOf own))

include hspan

/-- An expression fills some tokens if its operands are laid out over them. -/
theorem Sits.of_operands {D : List Token → Phrase → Prop} {l : List Token} (hD : D own e.phrase)
    (hexpr : ExprOf 0 own e.phrase) (hunbound : e.unbound = e) (hwhole : e.Whole)
    (hheld : (names l).map Token.literal = e.mentions.map Mention.name)
    (hinner : Spread l own (walkArgs (fun _ => true) e.operands)) (hown : own ≠ [] := by simp)
    (hl : l ≠ [] := by simp) : Sits D own e := by
  have hne : e ≠ .missing := by
    rintro rfl
    cases hspan
  refine ⟨hD, hunbound, hwhole, hown, [], fun t ht => absurd ht not_mem_nil, ?_⟩
  rw [Expr.walk_eq hne]
  refine .tree (n := .expr e) ⟨hown, ?_, ?_⟩ hl hheld hinner
  · show e.span?.getD default = _
    rw [hspan]
    rfl
  · rintro _ ⟨⟩
    exact ⟨hexpr, hunbound⟩

/-- A factor fills some tokens if its operands are laid out over them. -/
theorem Sits.factor {l : List Token} (hD : FactorOf own e.phrase) (hunbound : e.unbound = e)
    (hwhole : e.Whole) (hheld : (names l).map Token.literal = e.mentions.map Mention.name)
    (hinner : Spread l own (walkArgs (fun _ => true) e.operands)) (hown : own ≠ [] := by simp)
    (hl : l ≠ [] := by simp) : Sits FactorOf own e :=
  .of_operands hspan hD hD.expr hunbound hwhole hheld hinner hown hl

/-- A factor that holds no name: its operands are laid out with nothing but marks left. -/
theorem Sits.marked {l : List Token} (hD : FactorOf own e.phrase) (hunbound : e.unbound = e)
    (hwhole : e.Whole) (hmentions : e.mentions = []) (hnameless : Nameless l)
    (hinner : Spread l own (walkArgs (fun _ => true) e.operands)) (hown : own ≠ [] := by simp)
    (hl : l ≠ [] := by simp) : Sits FactorOf own e := by
  refine .factor hspan hD hunbound hwhole ?_ hinner hown hl
  rw [names_eq_nil hnameless, hmentions]
  rfl

/-- A factor that holds no name and whose tokens are all its own. -/
theorem Sits.leaf (hD : FactorOf own e.phrase) (hunbound : e.unbound = e) (hwhole : e.Whole)
    (hnameless : Nameless own) (hmentions : e.mentions = []) (hoperands : e.operands = [])
    (hown : own ≠ [] := by simp) : Sits FactorOf own e := by
  refine .marked hspan hD hunbound hwhole hmentions hnameless ?_ hown hown
  rw [hoperands]
  exact .loose own

end

/-- Arguments were read. -/
structure SitsAll (D : List Token → List Phrase → Prop) (ts : List Token) (as : List Expr) :
    Prop where
  derives : D ts (phrases as)
  unbound : unboundAll as = as
  whole : AllWhole as

/-- Arguments in parentheses were read, and their nodes are laid out behind the first of these. -/
def SitsArgs (ts : List Token) (as : List Expr) : Prop :=
  SitsAll (Enclosed (ExprOf 0)) ts as ∧ ∃ o us l, ts = o ++ us ∧ Mark .lparen o ∧ Nameless l ∧
    Spread l us (walkArgs (fun _ => true) as)

/-- A factor that ends with its arguments holds the names in front of these. -/
theorem Sits.applied {front ts : List Token} (hspan : e.span? = some (spanOf (front ++ ts)))
    (hargs : SitsArgs ts e.operands) (hD : FactorOf (front ++ ts) e.phrase)
    (hunbound : e.unbound = e) (hwhole : e.Whole)
    (hheld : (names front).map Token.literal = e.mentions.map Mention.name)
    (hfront : front ≠ [] := by simp) : Sits FactorOf (front ++ ts) e := by
  obtain ⟨-, o, us, l, rfl, ho, hl, hlaid⟩ := hargs
  refine .factor hspan hD hunbound hwhole (l := front ++ (o ++ l)) ?_
    (hlaid.after front ho.nameless ho.ne_nil) (by simp [hfront]) (by simp [hfront])
  rw [names_append, names_eq_nil (ho.nameless.append hl), append_nil, hheld]

/-! ### The rules for factors -/

section Rules

variable {sp : Span} {t d : Token} {ts : List Token} {as : List Expr} {name : Text}

theorem Sits.not (hsp : sp = spanOf ([t] ++ ts)) (ht : Mark .not [t]) (he : Sits FactorOf ts e) :
    Sits FactorOf ([t] ++ ts) (.not sp e) := by
  obtain ⟨l, hl, hlaid⟩ := he.laid
  refine .marked (congrArg some hsp) (.not ht he.derives) (by rw [Expr.unbound, he.unbound])
    he.whole rfl (ht.nameless.append hl) ?_
  have hall := hlaid.after [] ht.nameless ht.ne_nil
  simpa only [Expr.operands, walkArgs, append_nil, nil_append] using hall

theorem Sits.parens {r : List Token} (ht : Mark .lparen [t]) (he : Sits (ExprOf 0) ts e)
    (hr : Mark .rparen r) : Sits FactorOf ([t] ++ (ts ++ r)) e := by
  obtain ⟨l, hl, hlaid⟩ := he.laid
  exact ⟨.parens ht he.derives hr, he.unbound, he.whole, cons_ne_nil _ _, [t] ++ (l ++ r),
    ht.nameless.append (hl.append hr.nameless),
    (hlaid.close hr.nameless hr.ne_nil).after [] ht.nameless ht.ne_nil⟩

theorem Sits.print {o r : List Token} (hsp : sp = spanOf ([t] ++ (o ++ (ts ++ r))))
    (ht : Mark .kwPrint [t]) (ho : Mark .lparen o) (he : Sits (ExprOf 0) ts e)
    (hr : Mark .rparen r) : Sits FactorOf ([t] ++ (o ++ (ts ++ r))) (.print sp e) := by
  obtain ⟨l, hl, hlaid⟩ := he.laid
  refine .marked (congrArg some hsp) (.print ht ho he.derives hr)
    (by rw [Expr.unbound, he.unbound]) he.whole rfl
    (ht.nameless.append (ho.nameless.append (hl.append hr.nameless))) ?_
  have hall := (hlaid.close hr.nameless hr.ne_nil).after [t] ho.nameless ho.ne_nil
  simpa only [Expr.operands, walkArgs, append_nil] using hall

/-- A condition, with all its marks.  None of them is a name, so the names of the node are those of
its three parts. -/
theorem Sits.cond {cs th tl ys tr el ol ns er : List Token} {test yes no : Expr}
    (hsp : sp = spanOf
      ([t] ++ (cs ++ (th ++ (tl ++ (ys ++ (tr ++ (el ++ (ol ++ (ns ++ er))))))))))
    (ht : Mark .kwIf [t]) (htest : Sits (ExprOf 0) cs test) (hth : Mark .kwThen th)
    (htl : Mark .lbrace tl) (hyes : Sits (ExprOf 0) ys yes) (htr : Mark .rbrace tr)
    (hel : Mark .kwElse el) (hol : Mark .lbrace ol) (hno : Sits (ExprOf 0) ns no)
    (her : Mark .rbrace er) : Sits FactorOf
      ([t] ++ (cs ++ (th ++ (tl ++ (ys ++ (tr ++ (el ++ (ol ++ (ns ++ er)))))))))
      (.cond sp test yes no) := by
  obtain ⟨l₁, hl₁, hlaid₁⟩ := htest.laid
  obtain ⟨l₂, hl₂, hlaid₂⟩ := hyes.laid
  obtain ⟨l₃, hl₃, hlaid₃⟩ := hno.laid
  have hthen : Nameless (th ++ tl) := hth.nameless.append htl.nameless
  have helse : Nameless (tr ++ (el ++ ol)) :=
    htr.nameless.append (hel.nameless.append hol.nameless)
  have hl₃' := hl₃.append her.nameless
  have hl₂' := hl₂.append (helse.append hl₃')
  have hbranches := hlaid₂.between helse (append_ne_nil_of_left_ne_nil htr.ne_nil _) hl₃'
    (hlaid₃.close her.nameless her.ne_nil)
  have hall := (hlaid₁.between hthen (append_ne_nil_of_left_ne_nil hth.ne_nil _) hl₂'
    hbranches).after [] ht.nameless ht.ne_nil
  refine .marked (congrArg some hsp)
    (.cond ht htest.derives hth htl hyes.derives htr hel hol hno.derives her)
    (by rw [Expr.unbound, htest.unbound, hyes.unbound, hno.unbound])
    ⟨htest.whole, hyes.whole, hno.whole⟩ rfl
    (ht.nameless.append (hl₁.append (hthen.append hl₂'))) ?_
  simpa only [Expr.operands, walkArgs, append_assoc, append_nil, nil_append] using hall

section Applied

variable (hargs : SitsArgs ts as)

include hargs

theorem Sits.new {i : List Token} (hsp : sp = spanOf ([t] ++ (i ++ ts))) (ht : Mark .kwNew [t])
    (hi : Name name i) : Sits FactorOf ([t] ++ (i ++ ts)) (.new sp name as none) := by
  have hderives := FactorOf.new ht hi hargs.1.derives
  rw [← append_assoc] at hsp hderives ⊢
  refine .applied (congrArg some hsp) hargs hderives (by rw [Expr.unbound, hargs.1.unbound])
    hargs.1.whole ?_
  rw [names_append, names_eq_nil ht.nameless, nil_append, hi.names]
  rfl

theorem Sits.call (hsp : sp = spanOf ([t] ++ ts)) (ht : Name name [t]) :
    Sits FactorOf ([t] ++ ts) (.call sp name as none) :=
  .applied (congrArg some hsp) hargs (.call ht hargs.1.derives)
    (by rw [Expr.unbound, hargs.1.unbound]) hargs.1.whole ht.names

theorem Sits.send {method : Text} {m : List Token}
    (hsp : sp = spanOf ([t] ++ ([d] ++ (m ++ ts)))) (ht : Name name [t]) (hd : Mark .dot [d])
    (hm : Name method m) :
    Sits FactorOf ([t] ++ ([d] ++ (m ++ ts))) (.send sp name method as none none) := by
  have hderives := FactorOf.send ht hd hm hargs.1.derives
  rw [← append_assoc, ← append_assoc] at hsp hderives ⊢
  refine .applied (congrArg some hsp) hargs hderives (by rw [Expr.unbound, hargs.1.unbound])
    hargs.1.whole ?_
  rw [names_append, names_append, names_eq_nil hd.nameless, append_nil, map_append, ht.names,
    hm.names]
  rfl

end Applied

end Rules

/-- What the readers of expressions consume with some fuel.  The bounds on the number of tokens say
how much fuel is enough: every nonterminal is reached through few others before a token is
consumed. -/
structure ExprsConsume (fuel : Nat) : Prop where
  exprAt : ∀ {level done s}, level ≤ 4 → Consumed done s →
    8 * s.tokens.length ≤ fuel + level + 2 →
    Consumes (exprAt fuel level) done s (Sits (ExprOf level))
  chain : ∀ {level done s ts left}, level < 4 → Consumed (done ++ ts) s →
    8 * s.tokens.length ≤ fuel + 7 → Sits (ExprOf level) ts left →
    Consumes (chain fuel level (spanOf ts).start left) (done ++ ts) s
      fun us e => Sits (ExprOf level) (ts ++ us) e
  factor : ∀ {done s}, Consumed done s → 8 * s.tokens.length ≤ fuel + 7 →
    Consumes (factor fuel) done s (Sits FactorOf)
  args : ∀ {done s}, Consumed done s → 8 * s.tokens.length ≤ fuel + 7 →
    Consumes (args fuel) done s SitsArgs
  someArgs : ∀ {done s}, Consumed done s → 8 * s.tokens.length ≤ fuel + 1 →
    Consumes (someArgs fuel) done s fun ts as => SitsAll (Separated (ExprOf 0)) ts as ∧
      ∃ l, Nameless l ∧ Spread l ts (walkArgs (fun _ => true) as)

namespace ExprsConsume

variable {fuel : Nat} {done : List Token} {s : TokenInput}

/-- The current token is the first one of those that are consumed next. -/
theorem headD_eq {s s' : TokenInput} {ts : List Token} (h : s.tokens = ts ++ s'.tokens)
    (hne : ts ≠ []) : s.first = ts.headD default := by
  cases ts with
  | nil => exact absurd rfl hne
  | cons t ts => rw [TokenInput.first, h]; rfl

/-- An expression of a level: an operand of the next level, then a chain.  The bound on the fuel
leaves room for the levels that are still to be gone through. -/
theorem exprAt_succ (ih : ExprsConsume fuel) {level : Nat} (hlevel : level ≤ 4)
    (hs : Consumed done s) (hfuel : 8 * s.tokens.length ≤ fuel + 1 + level + 2) :
    Consumes (Parser.exprAt (fuel + 1) level) done s (Sits (ExprOf level)) := by
  rw [Parser.exprAt]
  split
  · next hlt =>
    rw [consumes_here]
    refine .bind_tokens (ih.exprAt hlt hs (by omega)) fun ts left s' hs' hts hleft => ?_
    have hstart : s.first.pos = (spanOf ts).start := by
      rw [headD_eq hts hleft.nonempty]
      rfl
    have hlen := congrArg List.length hts
    have hpos := hleft.length_pos
    rw [length_append] at hlen
    rw [hstart]
    exact ih.chain hlt hs' (by omega) { hleft with derives := hleft.derives.weaken hlt }
  · obtain rfl : level = 4 := by omega
    refine (ih.factor hs (by omega)).mono fun ts e he => ?_
    exact { he with derives := .factor he.derives }

/-- The operators of one level.  The tokens of the left operand were consumed before, so they are
carried along in `done`: the tree that grows to the left covers them too. -/
theorem chain_succ (ih : ExprsConsume fuel) {level : Nat} {ts : List Token} {left : Expr}
    (hlevel : level < 4) (hs : Consumed (done ++ ts) s)
    (hfuel : 8 * s.tokens.length ≤ fuel + 1 + 7) (hleft : Sits (ExprOf level) ts left) :
    Consumes (Parser.chain (fuel + 1) level (spanOf ts).start left) (done ++ ts) s
      fun us e => Sits (ExprOf level) (ts ++ us) e := by
  have hstop : Consumes (pure left) (done ++ ts) s
      fun us e => Sits (ExprOf level) (ts ++ us) e := by
    refine .pure hs ?_
    rwa [append_nil]
  rw [Parser.chain, consumes_current]
  split
  · exact hstop
  · next op hop =>
    split
    · next hop' =>
      have hoperator : (s.first.kind, op) ∈ operators level :=
        mem_operators_iff.mpr ⟨hop, hop'⟩
      have hkind := kind_of_ofToken? hop
      refine .advance hs rfl hkind.1 fun s₁ hs₁ hlen₁ hmark => ?_
      refine .bind (ih.exprAt hlevel hs₁ (by omega)) fun us right s₂ hs₂ hlen₂ hright => ?_
      have hfuel₂ : 8 * s₂.tokens.length ≤ fuel + 7 := by omega
      rw [consumes_spanFrom]
      generalize s.first = o at *
      -- The operation has the tokens of its left operand, the operator and the right one.
      have hown : ts ++ ([o] ++ us) ≠ [] := by simp
      have hstart : (spanOf ts).start = (spanOf (ts ++ ([o] ++ us))).start := by
        cases hts : ts with
        | nil => exact absurd hts hleft.nonempty
        | cons t ts => rfl
      rw [append_assoc, append_assoc] at hs₂
      have hbinary : Sits (ExprOf level) (ts ++ ([o] ++ us))
          (.binary ⟨(spanOf ts).start, s₂.lastStop⟩ op left right) := by
        obtain ⟨l, hl, hlaid⟩ := hleft.laid
        obtain ⟨l', hl', hlaid'⟩ := hright.laid
        have hsep : Nameless [o] := hmark.nameless hkind.2
        have hderives := hleft.derives.operator hoperator hmark hright.derives
        refine .of_operands ?_ hderives (hderives.weakest (Nat.le_of_lt hlevel)) ?_
          ⟨hleft.whole, hright.whole⟩ (l := l ++ ([o] ++ l')) ?_ ?_ hown
        · rw [hs₂.stop_eq hown, hstart]
          rfl
        · rw [Expr.unbound, hleft.unbound, hright.unbound]
        · rw [names_eq_nil (hl.append (hsep.append hl'))]
          rfl
        · have hall := hlaid.between hsep (cons_ne_nil _ _) hl' hlaid'
          simpa only [Expr.operands, walkArgs, append_nil] using hall
      rw [hstart] at hbinary ⊢
      rw [append_assoc, append_assoc]
      refine (ih.chain hlevel hs₂ hfuel₂ hbinary).mono fun vs e he => ?_
      simpa only [append_assoc] using he
    · exact hstop

/-- A number, after the sign that was consumed before it. -/
theorem integer_consumes {start : Position} {negative : Bool} (hs : Consumed done s)
    (hkind : s.first.kind = .integer) :
    Consumes (integer start negative) done s fun ts e => ∃ (w : Word) (n : Nat),
      ts = [s.first] ∧ e = .int ⟨start, s.first.stop⟩ w ∧
        Numeral n ts ∧ w.toInt = if negative then -(n : Int) else n := by
  obtain ⟨n, hn⟩ := Option.isSome_iff_exists.mp
    (hs.legible.numeral _ (Legible.head_mem hs.legible) hkind)
  rw [integer, consumes_current]
  dsimp only
  split
  · exact .fail hs nofun
  · next w hw =>
    refine .advance hs hkind rfl fun s₁ hs₁ _ _ => ?_
    rw [consumes_spanFrom]
    refine .pure hs₁ ⟨w, n, rfl, ?_, ⟨_, rfl, hkind, hn⟩, ?_⟩
    · rw [hs₁.stop_eq (cons_ne_nil _ _)]
      rfl
    · cases negative with
      | true => exact Text.toInt_of_toWord? (Text.toInt?_neg_of_toNat? hn) hw
      | false => exact Text.toInt_of_toWord? (Text.toInt?_of_toNat? hn) hw

/-- A word that is an expression by itself. -/
theorem word_consumes {k : TokenKind} {e : Span → Expr} (hs : Consumed done s)
    (hkind : s.first.kind = k)
    (hspan : ∀ sp, (e sp).span? = some sp) (hunbound : ∀ sp, (e sp).unbound = e sp)
    (hwhole : ∀ sp, (e sp).Whole) (hD : ∀ {ts} sp, Mark k ts → FactorOf ts (e sp).phrase)
    (hmentions : ∀ sp, (e sp).mentions = []) (hoperands : ∀ sp, (e sp).operands = [])
    (hk : k.isLast = false) (hk' : k ≠ .identifier := by simp) :
    Consumes (do
      Parser.advance
      return e (← spanFrom s.first.pos)) done s (Sits FactorOf) := by
  refine .advance hs hkind hk fun s₁ hs₁ _ hmark => ?_
  rw [consumes_spanFrom]
  refine .pure hs₁ ?_
  exact .leaf ((hspan _).trans (congrArg some hs₁.span_eq)) (hD _ hmark) (hunbound _) (hwhole _)
    (hmark.nameless hk') (hmentions _) (hoperands _)

/-- An operand: the parser looks at one token, and each of its branches follows one rule of the
grammar.  What the rules say of trees is in the lemmas on `Sits`, so here only the branches are
gone through. -/
theorem factor_succ (ih : ExprsConsume fuel) (hs : Consumed done s)
    (hfuel : 8 * s.tokens.length ≤ fuel + 1 + 7) :
    Consumes (Parser.factor (fuel + 1)) done s (Sits FactorOf) := by
  rw [Parser.factor, consumes_current]
  split
  · next hkind =>
    refine .advance hs hkind rfl fun s₁ hs₁ _ hmark => ?_
    refine .bind (ih.factor hs₁ (by omega)) fun ts e s₂ hs₂ _ he => ?_
    rw [consumes_spanFrom]
    refine .pure hs₂ ?_
    rw [append_assoc] at hs₂
    rw [append_nil]
    exact .not hs₂.span_eq hmark he
  · next hkind =>
    refine .advance hs hkind rfl fun s₁ hs₁ _ hmark => ?_
    refine .bind (ih.exprAt (Nat.zero_le _) hs₁ (by omega)) fun ts e s₂ hs₂ _ he =>
      .expect hs₂ rfl fun r s₃ hs₃ _ hr => .pure hs₃ ?_
    rw [append_nil]
    exact .parens hmark he hr
  · next hkind =>
    obtain ⟨t, u, rest, hts, -⟩ := Legible.exists_cons hs.legible (hkind ▸ rfl)
    rw [consumes_following hts]
    split
    · next hu =>
      refine .bind_tokens (advance_consumes hs (hkind ▸ rfl)) ?_
      rintro m - s₁ hs₁ hts₁ rfl
      have hhead : s₁.first = u := by
        rw [hts] at hts₁
        have hrest : u :: rest = s₁.tokens := (List.cons.inj hts₁).2
        rw [TokenInput.first, ← hrest, headD_cons]
      refine (integer_consumes hs₁ (hhead ▸ hu)).mono ?_
      rintro ts e ⟨w, n, rfl, rfl, hn, hw⟩
      have hmark : Mark .minus [s.first] := ⟨_, rfl, hkind⟩
      refine .leaf rfl ?_ rfl trivial (hmark.nameless.append hn.mark.nameless) rfl rfl
      rw [Expr.phrase, hw]
      exact .negative hmark hn
    · exact .fail hs (by simp)
  · next hkind =>
    refine (integer_consumes hs hkind).mono ?_
    rintro ts e ⟨w, n, rfl, rfl, hn, hw⟩
    refine .leaf rfl ?_ rfl trivial hn.mark.nameless rfl rfl
    rw [Expr.phrase, hw]
    exact .int hn
  · next hkind =>
    exact word_consumes (e := fun sp => .bool sp true) hs hkind (fun _ => rfl) (fun _ => rfl)
      (fun _ => trivial) (fun _ => .yes) (fun _ => rfl) (fun _ => rfl) rfl
  · next hkind =>
    exact word_consumes (e := fun sp => .bool sp false) hs hkind (fun _ => rfl) (fun _ => rfl)
      (fun _ => trivial) (fun _ => .no) (fun _ => rfl) (fun _ => rfl) rfl
  · next hkind =>
    exact word_consumes (e := .null) hs hkind (fun _ => rfl) (fun _ => rfl)
      (fun _ => trivial) (fun _ => .null) (fun _ => rfl) (fun _ => rfl) rfl
  · next hkind =>
    refine .advance hs hkind rfl fun s₁ hs₁ _ hmark => .identifier hs₁ fun i name s₂ hs₂ _ hi => ?_
    refine .bind (ih.args hs₂ (by omega)) fun ts as s₃ hs₃ _ has => ?_
    rw [consumes_spanFrom]
    refine .pure hs₃ ?_
    simp only [append_assoc, append_nil] at hs₃ ⊢
    exact .new has hs₃.span_eq hmark hi
  · next hkind =>
    refine .advance hs hkind rfl fun s₁ hs₁ _ hmark => ?_
    refine .bind (ih.exprAt (Nat.zero_le _) hs₁ (by omega)) fun cs test s₂ hs₂ _ htest => ?_
    refine .expect hs₂ rfl fun th s₃ hs₃ _ hth => .expect hs₃ rfl fun tl s₄ hs₄ _ htl => ?_
    refine .bind (ih.exprAt (Nat.zero_le _) hs₄ (by omega)) fun ys yes s₅ hs₅ _ hyes => ?_
    refine .expect hs₅ rfl fun tr s₆ hs₆ _ htr => .expect hs₆ rfl fun el s₇ hs₇ _ hel =>
      .expect hs₇ rfl fun ol s₈ hs₈ _ hol => ?_
    refine .bind (ih.exprAt (Nat.zero_le _) hs₈ (by omega)) fun ns no s₉ hs₉ _ hno => ?_
    refine .expect hs₉ rfl fun er s₁₀ hs₁₀ _ her => ?_
    rw [consumes_spanFrom]
    refine .pure hs₁₀ ?_
    simp only [append_assoc, append_nil] at hs₁₀ ⊢
    exact .cond hs₁₀.span_eq hmark htest hth htl hyes htr hel hol hno her
  · next hkind =>
    refine .advance hs hkind rfl fun s₁ hs₁ _ hmark => .expect hs₁ rfl fun o s₂ hs₂ _ ho => ?_
    refine .bind (ih.exprAt (Nat.zero_le _) hs₂ (by omega)) fun ts e s₃ hs₃ _ he => ?_
    refine .expect hs₃ rfl fun r s₄ hs₄ _ hr => ?_
    rw [consumes_spanFrom]
    refine .pure hs₄ ?_
    simp only [append_assoc, append_nil] at hs₄ ⊢
    exact .print hs₄.span_eq hmark ho he hr
  · next hkind =>
    have hname : Name s.first.literal [s.first] := ⟨_, rfl, hkind, rfl⟩
    refine .advance hs hkind rfl fun s₁ hs₁ _ _ => ?_
    rw [consumes_at?]
    split
    · refine .bind (ih.args hs₁ (by omega)) fun ts as s₂ hs₂ _ has => ?_
      rw [consumes_spanFrom]
      refine .pure hs₂ ?_
      simp only [append_assoc, append_nil] at hs₂ ⊢
      exact .call has hs₂.span_eq hname
    · rw [consumes_at?]
      split
      · next hdot =>
        refine .advance hs₁ (of_decide_eq_true hdot) rfl fun s₂ hs₂ _ hmark =>
          .identifier hs₂ fun m method s₃ hs₃ _ hm => ?_
        refine .bind (ih.args hs₃ (by omega)) fun ts as s₄ hs₄ _ has => ?_
        rw [consumes_spanFrom]
        refine .pure hs₄ ?_
        simp only [append_assoc, append_nil] at hs₄ ⊢
        exact .send has hs₄.span_eq hname hmark hm
      · rw [consumes_spanFrom]
        refine .pure hs₁ ?_
        exact .factor (congrArg some hs₁.span_eq) (.id hname) rfl trivial
          (l := [s.first]) hname.names (.loose _)
  · exact .fail hs (by simp)

/-- Arguments with their parentheses, which may enclose nothing. -/
theorem args_succ (ih : ExprsConsume fuel) (hs : Consumed done s)
    (hfuel : 8 * s.tokens.length ≤ fuel + 1 + 7) :
    Consumes (Parser.args (fuel + 1)) done s SitsArgs := by
  rw [Parser.args]
  refine .expect hs rfl fun o s₁ hs₁ _ ho => ?_
  rw [consumes_at?]
  split
  · next hr =>
    refine .advance hs₁ (of_decide_eq_true hr) rfl fun s₂ hs₂ _ hmark => .pure hs₂ ?_
    exact ⟨⟨.none ho hmark, rfl, trivial⟩, o, _, _, rfl, ho, hmark.nameless, .loose _⟩
  · refine .bind (ih.someArgs hs₁ (by omega)) fun ts as s₂ hs₂ _ has =>
      .expect hs₂ rfl fun r s₃ hs₃ _ hr => .pure hs₃ ?_
    rw [append_nil]
    obtain ⟨hargs, l, hl, hlaid⟩ := has
    exact ⟨⟨.some ho hargs.derives hr, hargs.unbound, hargs.whole⟩, o, ts ++ r, l ++ r, rfl, ho,
      hl.append hr.nameless, hlaid.close hr.nameless hr.ne_nil⟩

/-- Arguments with commas between them.  The commas belong to no argument, and there is no name
among them. -/
theorem someArgs_succ (ih : ExprsConsume fuel) (hs : Consumed done s)
    (hfuel : 8 * s.tokens.length ≤ fuel + 1 + 1) :
    Consumes (Parser.someArgs (fuel + 1)) done s fun ts as =>
      SitsAll (Separated (ExprOf 0)) ts as ∧
        ∃ l, Nameless l ∧ Spread l ts (walkArgs (fun _ => true) as) := by
  rw [Parser.someArgs]
  refine .bind (ih.exprAt (Nat.zero_le _) hs (by omega)) fun ts e s₁ hs₁ hlen he => ?_
  obtain ⟨l, hl, hlaid⟩ := he.laid
  have hpos := he.length_pos
  rw [consumes_at?]
  split
  · next hcomma =>
    refine .advance hs₁ (of_decide_eq_true hcomma) rfl fun s₂ hs₂ _ hmark =>
      .bind (ih.someArgs hs₂ (by omega)) fun us as s₃ hs₃ _ has => .pure hs₃ ?_
    rw [append_nil]
    obtain ⟨hargs, l', hl', hlaid'⟩ := has
    exact ⟨⟨.more he.derives hmark hargs.derives, by rw [unboundAll, he.unbound, hargs.unbound],
      he.whole, hargs.whole⟩, _, hl.append (hmark.nameless.append hl'),
      hlaid.between hmark.nameless hmark.ne_nil hl' hlaid'⟩
  · refine .pure hs₁ ?_
    rw [append_nil]
    refine ⟨⟨.one he.derives, by rw [unboundAll, he.unbound]; rfl, he.whole, trivial⟩, l, hl, ?_⟩
    rwa [walkArgs, walkArgs, append_nil]

end ExprsConsume

/-- Expressions are derived from what is consumed for them, and laid out over it. -/
theorem exprsConsume (fuel : Nat) : ExprsConsume fuel := by
  induction fuel with
  | zero =>
    -- Without fuel the bounds leave no token, but there is always one.
    have hnone : ∀ {done : List Token} {s : TokenInput}, Consumed done s →
        ¬ 8 * s.tokens.length ≤ 7 := by
      intro done s hs
      have := Legible.length_pos hs.legible
      omega
    constructor
    · exact fun hlevel hs hfuel => absurd (by omega) (hnone hs)
    · exact fun _ hs hfuel => absurd (by omega) (hnone hs)
    · exact fun hs hfuel => absurd (by omega) (hnone hs)
    · exact fun hs hfuel => absurd (by omega) (hnone hs)
    · exact fun hs hfuel => absurd (by omega) (hnone hs)
  | succ fuel ih =>
    exact ⟨ih.exprAt_succ, ih.chain_succ, ih.factor_succ, ih.args_succ, ih.someArgs_succ⟩

theorem expr_consumes {done : List Token} {s : TokenInput} (hs : Consumed done s) :
    Consumes expr done s (Sits (ExprOf 0)) := by
  rw [expr, consumes_fuelLeft]
  exact (exprsConsume _).exprAt (Nat.zero_le _) hs (by omega)

end Parser

end Foolscap
