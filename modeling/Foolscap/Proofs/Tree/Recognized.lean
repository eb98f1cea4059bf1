import Foolscap.Proofs.Tree.Derived

/-!
# What is derived is read

Every reader of the parser accepts what the grammar derives, consumes just the tokens of the
derivation and returns its tree, unless an integer of the tree is out of range.  So the parser
accepts the programs of the grammar, and no sequence of tokens has two trees.

## Design Notes

The grammar does not say where a phrase ends.  The parser takes an operator or an opening
parenthesis wherever it can, so a phrase is accepted if what follows it cannot extend it.
-/

namespace Foolscap

open Grammar List

/-! ### Ranges -/

mutual

/-- The integers of a tree are words, so they are in range. -/
theorem Expr.phrase_inRange : ∀ e : Expr, e.phrase.InRange
  | .missing | .bool _ _ | .null _ | .id _ _ _ => trivial
  | .binary _ _ l r => ⟨l.phrase_inRange, r.phrase_inRange⟩
  | .not _ e | .print _ e => e.phrase_inRange
  | .cond _ c t e => ⟨c.phrase_inRange, t.phrase_inRange, e.phrase_inRange⟩
  | .int _ w => ⟨w.le_toInt, w.toInt_lt⟩
  | .call _ _ as _ | .new _ _ as _ | .send _ _ _ as _ _ => phrases_inRange as

theorem phrases_inRange : ∀ as : List Expr, PhrasesInRange (phrases as)
  | [] => trivial
  | e :: es => ⟨e.phrase_inRange, phrases_inRange es⟩

end

mutual

theorem Decl.clause_inRange : ∀ d : Decl, d.clause.InRange
  | .var v => v.value.phrase_inRange
  | .fn r => r.clause_inRange
  | .cls c => c.clause_inRange

theorem Routine.clause_inRange : ∀ r : Routine, r.clause.InRange
  | ⟨_, _, _, _, decls, body⟩ => ⟨clauses_inRange decls, body.phrase_inRange⟩

theorem ClassDecl.clause_inRange : ∀ c : ClassDecl, c.clause.InRange
  | ⟨_, _, _, _, methods, _, _⟩ => methodClauses_inRange methods

theorem clauses_inRange : ∀ ds : List Decl, ClausesInRange (clauses ds)
  | [] => trivial
  | d :: ds => ⟨d.clause_inRange, clauses_inRange ds⟩

theorem methodClauses_inRange : ∀ ms : List Method, ClausesInRange (methodClauses ms)
  | [] => trivial
  | ⟨r, _⟩ :: ms => ⟨r.clause_inRange, methodClauses_inRange ms⟩

end

theorem Program.script_inRange (p : Program) : p.script.InRange := by
  refine ⟨?_, clauses_inRange p.decls, p.body.phrase_inRange⟩
  show ClausesInRange (p.classes.map ClassDecl.clause)
  induction p.classes with
  | nil => trivial
  | cons c cs ih => exact ⟨c.clause_inRange, ih⟩

/-- Operands with operators between them are in range if each of them is. -/
theorem Grammar.leftAssociated_inRange (first : Phrase) (rest : List (BinaryOp × Phrase)) :
    (leftAssociated first rest).InRange ↔ first.InRange ∧ ∀ o ∈ rest, o.2.InRange := by
  induction rest generalizing first with
  | nil => simp [leftAssociated]
  | cons o rest ih =>
    rw [leftAssociated, foldl_cons]
    refine (ih _).trans ?_
    rw [Phrase.InRange, forall_mem_cons, and_assoc]

/-! ### First tokens -/

namespace Grammar

variable {ts : List Token}

/-- The first token of a factor is neither a closing parenthesis nor `let`. -/
theorem FactorOf.exists_mark {e : Phrase} (h : FactorOf ts e) :
    ∃ k o us, ts = o ++ us ∧ Mark k o ∧ k ≠ .rparen ∧ k ≠ .kwLet := by
  cases h with
  | int hn => exact ⟨_, _, [], (append_nil _).symm, hn.mark, by decide⟩
  | yes hm | no hm | null hm => exact ⟨_, _, [], (append_nil _).symm, hm, by decide⟩
  | id hn => exact ⟨_, _, [], (append_nil _).symm, hn.mark, by decide⟩
  | not hm _ | parens hm _ _ | negative hm _ | new hm _ _
  | cond hm | print hm _ _ _ => exact ⟨_, _, _, rfl, hm, by decide⟩
  | call hn _ | send hn _ _ _ => exact ⟨_, _, _, rfl, hn.mark, by decide⟩

/-- The first token of an expression is that of a factor. -/
theorem ExprOf.exists_mark {level n : Nat} (hn : level + n = 4) {e : Phrase}
    (h : ExprOf level ts e) : ∃ k o us, ts = o ++ us ∧ Mark k o ∧ k ≠ .rparen ∧ k ≠ .kwLet := by
  induction n generalizing level ts e with
  | zero =>
    cases h with
    | operation hlt => omega
    | factor hfactor => exact hfactor.exists_mark
  | succ n ih =>
    cases h with
    | factor => omega
    | operation _ hhead _ =>
      obtain ⟨k, o, us, rfl, ho, hk⟩ := ih (by omega) hhead
      exact ⟨k, o, _, append_assoc _ _ _, ho, hk⟩

theorem RoutineOf.exists_mark {d : Clause} (h : RoutineOf ts d) :
    ∃ f us, ts = f ++ us ∧ Mark .kwFun f := by
  cases h with
  | mk hfun => exact ⟨_, _, rfl, hfun⟩

theorem ClassOf.exists_mark {d : Clause} (h : ClassOf ts d) :
    ∃ c us, ts = c ++ us ∧ Mark .kwClass c := by
  cases h with
  | mk hclass => exact ⟨_, _, rfl, hclass⟩

theorem ParamOf.exists_mark {p : Text × Ty} (h : ParamOf ts p) :
    ∃ i us, ts = i ++ us ∧ Mark .identifier i := by
  cases h with
  | mk hname => exact ⟨_, _, rfl, hname.mark⟩

/-- Parts with commas between them start with the first one. -/
theorem Separated.exists_head {α : Type} {P : List Token → α → Prop} {as : List α}
    (h : Separated P ts as) : ∃ us vs a, ts = us ++ vs ∧ P us a := by
  cases h with
  | one hp => exact ⟨_, [], _, (append_nil _).symm, hp⟩
  | more hp _ _ => exact ⟨_, _, _, rfl, hp⟩

end Grammar

namespace Parser

variable {α β : Type}

/-- A reader fails for lack of fuel. -/
def GivesUp (x : Parser α) (s : TokenInput) : Prop :=
  ∃ d, x.run s = .error d ∧ d.cause = .parsing .outOfFuel

/-- From some input a reader consumes all tokens up to a rest and returns what is stated, if a
condition holds, and fails otherwise.  It may give up: that a program is read with the fuel there is
was said before. -/
structure Accepts (x : Parser α) (s : TokenInput) (rest : List Token) (good : Prop)
    (Q : α → Prop) : Prop where
  accept : good → (∃ a s', x.run s = .ok (a, s') ∧ s'.tokens = rest ∧ Q a) ∨ x.GivesUp s
  reject : ¬ good → ∃ d, x.run s = .error d

namespace Accepts

variable {x : Parser α} {f : α → Parser β} {s : TokenInput} {rest rest' : List Token}
  {good good' : Prop} {Q R : α → Prop} {T : β → Prop}

theorem pure {a : α} (hs : s.tokens = rest) (hg : good) (h : Q a) :
    Accepts (Pure.pure a) s rest good Q :=
  ⟨fun _ => .inl ⟨a, s, rfl, hs, h⟩, fun hn => absurd hg hn⟩

theorem outOfFuel : Accepts (here >>= fun p => failAt p .outOfFuel : Parser α) s rest good Q :=
  ⟨fun _ => .inr ⟨_, rfl, rfl⟩, fun _ => ⟨_, rfl⟩⟩

theorem fail {pos : Position} {e : SyntaxError} (h : ¬ good) :
    Accepts (failAt pos e : Parser α) s rest good Q :=
  ⟨fun hg => absurd hg h, fun _ => ⟨_, rfl⟩⟩

/-- Readers that do the same accept the same. -/
theorem iff_of_run {y : Parser α} {s₁ : TokenInput} (h : x.run s = y.run s₁) :
    Accepts x s rest good Q ↔ Accepts y s₁ rest good Q := by
  constructor
  · rintro ⟨ha, hr⟩
    rw [GivesUp, h] at ha
    exact ⟨ha, h ▸ hr⟩
  · rintro ⟨ha, hr⟩
    rw [GivesUp, ← h] at ha
    exact ⟨ha, h ▸ hr⟩

theorem congr (h : Accepts x s rest good Q) (hg : good ↔ good') : Accepts x s rest good' Q :=
  propext hg ▸ h

theorem trim (h : Accepts x s rest (good ∧ True) Q) : Accepts x s rest good Q :=
  h.congr (iff_of_eq (and_true _))

/-- A reader after another one accepts if both do. -/
theorem bind (hx : Accepts x s rest good Q)
    (hf : ∀ a s', s'.tokens = rest → Q a → Accepts (f a) s' rest' good' T) :
    Accepts (x >>= f) s rest' (good ∧ good') T := by
  have hrun : ∀ {r}, x.run s = r → (x >>= f).run s = r >>= fun p => (f p.1).run p.2 := by
    rintro r rfl
    exact StateT.run_bind _ _ _
  constructor
  · rintro ⟨hg, hg'⟩
    obtain ⟨a, s₁, hrun₁, hs₁, ha⟩ | ⟨d, hd, hfuel⟩ := hx.accept hg
    · obtain ⟨b, s', hrun', hs', hb⟩ | ⟨d, hd, hfuel⟩ := (hf a s₁ hs₁ ha).accept hg'
      · exact .inl ⟨b, s', (hrun hrun₁).trans hrun', hs', hb⟩
      · exact .inr ⟨d, (hrun hrun₁).trans hd, hfuel⟩
    · exact .inr ⟨d, hrun hd, hfuel⟩
  · intro hbad
    by_cases hg : good
    · obtain ⟨a, s₁, hrun₁, hs₁, ha⟩ | ⟨d, hd, -⟩ := hx.accept hg
      · obtain ⟨d, hd⟩ := (hf a s₁ hs₁ ha).reject fun hg' => hbad ⟨hg, hg'⟩
        exact ⟨d, (hrun hrun₁).trans hd⟩
      · exact ⟨d, hrun hd⟩
    · obtain ⟨d, hd⟩ := hx.reject hg
      exact ⟨d, hrun hd⟩

/-- A reader whose value becomes part of a node. -/
theorem close {start : Position} {node : Span → α → β} (hx : Accepts x s rest good Q)
    (hnode : ∀ sp a, Q a → T (node sp a)) :
    Accepts (x >>= fun a => spanFrom start >>= fun sp => Pure.pure (node sp a)) s rest good T := by
  have hend : ∀ a s', s'.tokens = rest → Q a →
      Accepts (spanFrom start >>= fun sp => Pure.pure (node sp a)) s' rest True T :=
    fun a s' hs' ha =>
      ⟨fun _ => .inl ⟨_, s', rfl, hs', hnode _ a ha⟩, fun hn => absurd trivial hn⟩
  exact (hx.bind hend).trim

/-- A reader after one that always accepts. -/
theorem bind_true (hx : Accepts x s rest True Q)
    (hf : ∀ a s', s'.tokens = rest → Q a → Accepts (f a) s' rest' good T) :
    Accepts (x >>= f) s rest' good T :=
  (hx.bind hf).congr (iff_of_eq (true_and good))

end Accepts

/-! ### Readers that consume nothing -/

section

variable {s : TokenInput} {rest : List Token} {good : Prop} {T : β → Prop}

theorem accepts_pure {a : α} {f : α → Parser β} :
    Accepts (pure a >>= f) s rest good T ↔ Accepts (f a) s rest good T :=
  Accepts.iff_of_run rfl

theorem accepts_current {f : Token → Parser β} :
    Accepts (current >>= f) s rest good T ↔ Accepts (f s.first) s rest good T :=
  Accepts.iff_of_run rfl

theorem accepts_here {f : Position → Parser β} :
    Accepts (here >>= f) s rest good T ↔
      Accepts (f s.first.pos) s rest good T :=
  Accepts.iff_of_run rfl

theorem accepts_at? {k : TokenKind} {f : Bool → Parser β} :
    Accepts (at? k >>= f) s rest good T ↔
      Accepts (f (decide (s.first.kind = k))) s rest good T :=
  Accepts.iff_of_run rfl

theorem accepts_spanFrom {start : Position} {f : Span → Parser β} :
    Accepts (spanFrom start >>= f) s rest good T ↔
      Accepts (f ⟨start, s.lastStop⟩) s rest good T :=
  Accepts.iff_of_run rfl

theorem accepts_following {t u : Token} {us : List Token} {f : Token → Parser β}
    (hts : s.tokens = t :: u :: us) :
    Accepts (following >>= f) s rest good T ↔ Accepts (f u) s rest good T := by
  obtain ⟨tokens, stop⟩ := s
  obtain rfl : tokens = t :: u :: us := hts
  exact Accepts.iff_of_run rfl

theorem accepts_fuelLeft {f : Nat → Parser β} :
    Accepts (fuelLeft >>= f) s rest good T ↔
      Accepts (f (8 * (s.tokens.length + 1))) s rest good T :=
  Accepts.iff_of_run rfl

end

/-! ### Tokens -/

/-- Some tokens stand at the front of the input and others, at least one, after them.  No token is a
lexical error. -/
structure Ahead (s : TokenInput) (ts rest : List Token) : Prop where
  tokens : s.tokens = ts ++ rest
  flawless : ∀ t ∈ s.tokens, t.kind ≠ .error
  more : rest ≠ []

namespace Ahead

variable {s s' : TokenInput} {ts us rest : List Token}

/-- The first part of what is ahead. -/
theorem first (h : Ahead s (ts ++ us) rest) : Ahead s ts (us ++ rest) :=
  ⟨h.tokens.trans (append_assoc _ _ _), h.flawless,
    append_ne_nil_of_right_ne_nil _ h.more⟩

/-- What is ahead after the first part. -/
theorem next (h : Ahead s (ts ++ us) rest) (hs' : s'.tokens = us ++ rest) : Ahead s' us rest := by
  refine ⟨hs', fun t ht => h.flawless t ?_, h.more⟩
  rw [h.first.tokens, ← hs']
  exact mem_append_right _ ht

theorem last (h : Ahead s ts rest) : Ahead s (ts ++ []) rest := (append_nil ts).symm ▸ h

end Ahead

section

variable {s : TokenInput} {o ts us rest rest' : List Token} {good good' : Prop} {T : β → Prop}

variable {k : TokenKind} {f : Unit → Parser β}

theorem Ahead.kind (h : Ahead s (o ++ us) rest) (ho : Mark k o) : s.first.kind = k := by
  rw [TokenInput.first, h.first.tokens]
  exact ho.kind_headD _

theorem Ahead.accepts_checkLexical (h : Ahead s ts rest) :
    Accepts (checkLexical >>= f) s rest' good T ↔ Accepts (f ()) s rest' good T := by
  have hhead : s.first.kind ≠ .error := by
    rw [TokenInput.first]
    cases hs : s.tokens with
    | nil => exact absurd (append_eq_nil_iff.mp (h.tokens.symm.trans hs)).2 h.more
    | cons t ts => exact h.flawless t (hs ▸ mem_cons_self)
  have hrun : checkLexical.run s = .ok ((), s) := by
    show (if s.first.kind = .error then _ else _ : Parser Unit).run s = _
    rw [if_neg hhead]
    rfl
  refine Accepts.iff_of_run ?_
  rw [StateT.run_bind, hrun]
  rfl

/-- A token is consumed if no lexical error follows it. -/
theorem advance_accepts (ho : Mark k o) (h : Ahead s o rest) :
    Accepts advance s rest True fun _ => True := by
  obtain ⟨t, rfl, -⟩ := ho
  obtain ⟨tokens, stop⟩ := s
  obtain ⟨hs, hflaw, hmore⟩ := h
  obtain rfl : tokens = t :: rest := hs
  cases rest with
  | nil => exact absurd rfl hmore
  | cons u rest =>
    refine ⟨fun _ => .inl ⟨(), ⟨u :: rest, t.stop⟩, ?_, rfl, trivial⟩, fun hn => absurd trivial hn⟩
    rw [advance_run_cons, if_neg (hflaw u (mem_cons_of_mem _ mem_cons_self))]

/-- A reader of the first part of what is ahead, and one of what follows. -/
theorem Accepts.read {x : Parser α} {f : α → Parser β} {Q : α → Prop}
    (hx : Accepts x s (us ++ rest) good Q) (h : Ahead s (ts ++ us) rest)
    (hf : ∀ a s', Ahead s' us rest → Q a → Accepts (f a) s' rest' good' T) :
    Accepts (x >>= f) s rest' (good ∧ good') T :=
  hx.bind fun a s' hs' => hf a s' (h.next hs')

theorem Accepts.advance (ho : Mark k o) (h : Ahead s (o ++ us) rest)
    (hf : ∀ s', Ahead s' us rest → Accepts (f ()) s' rest' good T) :
    Accepts (Parser.advance >>= f) s rest' good T :=
  (advance_accepts ho h.first).bind_true fun _ s' hs' _ => hf s' (h.next hs')

theorem Accepts.expect (ho : Mark k o) (h : Ahead s (o ++ us) rest)
    (hf : ∀ s', Ahead s' us rest → Accepts (f ()) s' rest' good T) :
    Accepts (Parser.expect k >>= f) s rest' good T := by
  have hx : Accepts (Parser.expect k) s (us ++ rest) True fun _ => True := by
    rw [Parser.expect, accepts_current, if_pos (h.kind ho)]
    exact advance_accepts ho h.first
  exact hx.bind_true fun _ s' hs' _ => hf s' (h.next hs')

theorem Ahead.literal {name : Text} (h : Ahead s (o ++ us) rest) (ho : Name name o) :
    s.first.literal = name := by
  obtain ⟨t, rfl, -, hl⟩ := ho
  rw [TokenInput.first, h.tokens]
  exact hl

theorem Accepts.identifier {name : Text} {f : Text → Parser β} (ho : Name name o)
    (h : Ahead s (o ++ us) rest) (hf : ∀ s', Ahead s' us rest → Accepts (f name) s' rest' good T) :
    Accepts (Parser.identifier >>= f) s rest' good T := by
  have hx : Accepts Parser.identifier s (us ++ rest) True fun a => a = name := by
    rw [Parser.identifier, accepts_current]
    exact .expect ho.mark h.first.last fun s' h' => .pure h'.tokens trivial (h.literal ho)
  refine hx.bind_true ?_
  rintro a s' hs' rfl
  exact hf s' (h.next hs')

end

/-! ### Expressions -/

/-- What follows a factor and cannot extend it. -/
def Ends (rest : List Token) : Prop :=
  (rest.headD default).kind ≠ .lparen ∧ (rest.headD default).kind ≠ .dot

/-- What follows an expression of a level and cannot extend it. -/
def Stops (level : Nat) (rest : List Token) : Prop :=
  Ends rest ∧
    ∀ op, BinaryOp.ofToken? (rest.headD default).kind = some op → op.level < level

variable {s : TokenInput} {us rest o : List Token} {k : TokenKind} {level : Nat}

/-- What stands before an expression sees neither a closing parenthesis nor `let`. -/
theorem Ahead.kind_ne {ts : List Token} {e : Phrase} (h : Ahead s (ts ++ us) rest)
    (he : ExprOf 0 ts e) : s.first.kind ≠ .rparen ∧ s.first.kind ≠ .kwLet := by
  obtain ⟨k, o, vs, rfl, ho, hk⟩ := he.exists_mark (Nat.zero_add 4)
  rw [append_assoc] at h
  rwa [h.kind ho]

/-- What the readers of expressions accept with some fuel. -/
structure ExprsAccept (fuel : Nat) : Prop where
  exprAt : ∀ {level ts e rest s}, ExprOf level ts e → Ahead s ts rest → Stops level rest →
    Accepts (exprAt fuel level) s rest e.InRange fun a => a.phrase = e
  chain : ∀ {level start left us ops rest s}, OperandsOf level us ops → Ahead s us rest →
    Stops level rest →
    Accepts (chain fuel level start left) s rest (∀ o ∈ ops, o.2.InRange) fun a =>
      a.phrase = leftAssociated left.phrase ops
  factor : ∀ {ts e rest s}, FactorOf ts e → Ahead s ts rest → Ends rest →
    Accepts (factor fuel) s rest e.InRange fun a => a.phrase = e
  args : ∀ {ts as rest s}, Enclosed (ExprOf 0) ts as → Ahead s ts rest →
    Accepts (args fuel) s rest (PhrasesInRange as) fun a => phrases a = as
  someArgs : ∀ {ts as rest s}, Separated (ExprOf 0) ts as → Ahead s ts rest →
    (rest.headD default).kind = .rparen →
    Accepts (someArgs fuel) s rest (PhrasesInRange as) fun a => phrases a = as

theorem Ends.of_mark (ho : Mark k o) (hk : k ≠ .lparen ∧ k ≠ .dot := by simp) :
    Ends (o ++ rest) := by
  obtain ⟨t, rfl, rfl⟩ := ho
  exact hk

theorem Stops.of_mark (ho : Mark k o) (hk : k ≠ .lparen ∧ k ≠ .dot := by simp)
    (hop : BinaryOp.ofToken? k = none := by rfl) : Stops level (o ++ rest) := by
  refine ⟨.of_mark ho hk, ?_⟩
  obtain ⟨t, rfl, rfl⟩ := ho
  intro op h
  cases hop.symm.trans h

theorem Stops.of_mark_append (ho : Mark k o) (hk : k ≠ .lparen ∧ k ≠ .dot := by simp)
    (hop : BinaryOp.ofToken? k = none := by rfl) : Stops level ((o ++ us) ++ rest) := by
  rw [append_assoc]
  exact .of_mark ho hk hop

/-- An operator stops operands of higher levels. -/
theorem Stops.of_operator {op : BinaryOp} (hop : (k, op) ∈ operators level) (ho : Mark k o) :
    Stops (level + 1) (o ++ rest) := by
  obtain ⟨htoken, hlevel⟩ := mem_operators_iff.mp hop
  constructor
  · refine .of_mark ho ⟨?_, ?_⟩ <;> rintro rfl <;> cases htoken
  · obtain ⟨t, rfl, rfl⟩ := ho
    intro op' hop'
    cases htoken.symm.trans hop'
    omega

theorem Stops.mono (h : Stops level rest) : Stops (level + 1) rest :=
  ⟨h.1, fun op hop => Nat.lt_succ_of_lt (h.2 op hop)⟩

/-- Operands of a level are followed by an operator of the level, or by what follows them all. -/
theorem Stops.of_operands {ops : List (BinaryOp × Phrase)} (h : OperandsOf level us ops)
    (hrest : Stops level rest) : Stops (level + 1) (us ++ rest) := by
  cases h with
  | nil => exact hrest.mono
  | cons hmem hmark _ _ =>
    rw [append_assoc]
    exact .of_operator hmem hmark

namespace ExprsAccept

variable {fuel : Nat} {s : TokenInput} {ts rest : List Token}

/-- An expression of a level.  What follows it must not go on with it at this level or at one that
binds more tightly. -/
theorem exprAt_succ (ih : ExprsAccept fuel) {level : Nat} {e : Phrase} (h : ExprOf level ts e)
    (ha : Ahead s ts rest) (hstops : Stops level rest) :
    Accepts (Parser.exprAt (fuel + 1) level) s rest e.InRange fun a => a.phrase = e := by
  rw [Parser.exprAt]
  cases h with
  | factor hfactor =>
    rw [if_neg (Nat.lt_irrefl 4)]
    exact ih.factor hfactor ha hstops.1
  | @operation _ ts us first ops hlt hhead htail =>
    rw [if_pos hlt, accepts_here]
    refine ((ih.exprAt hhead ha.first (.of_operands htail hstops)).read ha ?_).congr
      (leftAssociated_inRange first ops).symm
    rintro a s' ha' rfl
    exact ih.chain htail ha' hstops

/-- A chain is read to its end: the operators that are derived are taken one by one, and what
follows is none of the level. -/
theorem chain_succ (ih : ExprsAccept fuel) {level : Nat} {start : Position} {left : Expr}
    {ops : List (BinaryOp × Phrase)} (h : OperandsOf level ts ops) (ha : Ahead s ts rest)
    (hstops : Stops level rest) :
    Accepts (Parser.chain (fuel + 1) level start left) s rest (∀ o ∈ ops, o.2.InRange) fun a =>
      a.phrase = leftAssociated left.phrase ops := by
  rw [Parser.chain, accepts_current]
  cases h with
  | nil =>
    have hhead : s.first = rest.headD default := by rw [TokenInput.first, ha.tokens]; rfl
    have hdone : Accepts (pure left) s rest (∀ o ∈ ([] : List (BinaryOp × Phrase)), o.2.InRange)
        fun a => a.phrase = leftAssociated left.phrase [] :=
      .pure ha.tokens (by simp) rfl
    rw [hhead]
    split
    · exact hdone
    · next op hop =>
      rw [if_neg (Nat.ne_of_lt (hstops.2 op hop))]
      exact hdone
  | @cons _ k op o ts us e ops hmem hmark hoperand htail =>
    obtain ⟨htoken, hop⟩ := mem_operators_iff.mp hmem
    rw [ha.kind hmark, htoken]
    dsimp only
    rw [if_pos hop]
    refine .advance hmark ha fun s₁ ha₁ => ?_
    refine ((ih.exprAt hoperand ha₁.first (.of_operands htail hstops)).read ha₁
      ?_).congr (by rw [forall_mem_cons])
    rintro right s₂ ha₂ rfl
    rw [accepts_spanFrom]
    exact ih.chain htail ha₂ hstops

/-- A number, after the sign that was consumed before it. -/
theorem integer_accepts {start : Position} (negative : Bool) {n : Nat} (hn : Numeral n ts)
    (ha : Ahead s ts rest) :
    Accepts (integer start negative) s rest
      (Phrase.int (if negative then -(n : Int) else n)).InRange
      fun a => a.phrase = .int (if negative then -(n : Int) else n) := by
  obtain ⟨t, rfl, hk, hvalue⟩ := hn
  have hhead : s.first = t := by rw [TokenInput.first, ha.tokens]; rfl
  have hint : Text.toInt? (if negative then 45 :: t.literal else t.literal) =
      some (if negative then -(n : Int) else n) := by
    cases negative with
    | true => exact Text.toInt?_neg_of_toNat? hvalue
    | false => exact Text.toInt?_of_toNat? hvalue
  generalize (if negative then -(n : Int) else n) = value at hint ⊢
  rw [integer, accepts_current, hhead]
  dsimp only
  rw [Text.toWord?_of_toInt? hint]
  by_cases hrange : -2 ^ 63 ≤ value ∧ value < 2 ^ 63
  · rw [if_pos hrange]
    refine .advance ⟨t, rfl, hk⟩ ha.last fun s₁ ha₁ => ?_
    rw [accepts_spanFrom]
    refine .pure ha₁.tokens hrange ?_
    rw [Expr.phrase, Int64.toInt_ofInt_of_le hrange.1 hrange.2]
  · rw [if_neg hrange]
    exact .fail hrange

/-- An operand is read by the rule that derives it: the first token of each rule tells it apart
from the others, up to what follows a name. -/
theorem factor_succ (ih : ExprsAccept fuel) {e : Phrase} (h : FactorOf ts e)
    (ha : Ahead s ts rest) (hends : Ends rest) :
    Accepts (Parser.factor (fuel + 1)) s rest e.InRange fun a => a.phrase = e := by
  rw [Parser.factor, accepts_current]
  cases h with
  | not hmark hoperand =>
    rw [ha.kind hmark]
    refine .advance hmark ha fun s₁ ha₁ => ?_
    exact (ih.factor hoperand ha₁ hends).close fun _ _ h => h ▸ rfl
  | parens hl hinner hr =>
    rw [ha.kind hl]
    refine .advance hl ha fun s₁ ha₁ => ?_
    refine ((ih.exprAt hinner ha₁.first (.of_mark hr)).read ha₁ ?_).trim
    rintro a s₂ ha₂ rfl
    exact .expect hr ha₂.last fun s₃ ha₃ => .pure ha₃.tokens trivial rfl
  | int hn =>
    rw [ha.last.kind hn.mark]
    exact integer_accepts false hn ha
  | negative hm hn =>
    rw [ha.kind hm]
    obtain ⟨t, rfl, hk⟩ := hm
    have hmark := hn.mark
    obtain ⟨u, rfl, hu⟩ := hmark
    rw [accepts_following ha.tokens, if_pos hu]
    exact .advance ⟨t, rfl, hk⟩ ha fun s₁ ha₁ => integer_accepts true hn ha₁
  | yes hmark | no hmark | null hmark =>
    rw [ha.last.kind hmark]
    refine .advance hmark ha.last fun s₁ ha₁ => ?_
    rw [accepts_spanFrom]
    exact .pure ha₁.tokens trivial rfl
  | new hmark hname hargs =>
    rw [ha.kind hmark]
    refine .advance hmark ha fun s₁ ha₁ => .identifier hname ha₁ fun s₂ ha₂ => ?_
    exact (ih.args hargs ha₂).close fun _ _ h => h ▸ rfl
  | cond hmark htest ht htl hyes htr he hel hno her =>
    rw [ha.kind hmark]
    refine .advance hmark ha fun s₁ ha₁ => ?_
    refine (ih.exprAt htest ha₁.first (.of_mark_append ht)).read ha₁ ?_
    rintro test s₂ ha₂ rfl
    refine .expect ht ha₂ fun s₃ ha₃ => .expect htl ha₃ fun s₄ ha₄ => ?_
    refine (ih.exprAt hyes ha₄.first (.of_mark_append htr)).read ha₄ ?_
    rintro yes s₅ ha₅ rfl
    refine .expect htr ha₅ fun s₆ ha₆ => .expect he ha₆ fun s₇ ha₇ =>
      .expect hel ha₇ fun s₈ ha₈ => ?_
    refine ((ih.exprAt hno ha₈.first (.of_mark her)).read ha₈ ?_).trim
    rintro no s₉ ha₉ rfl
    refine .expect her ha₉.last fun s₁₀ ha₁₀ => ?_
    rw [accepts_spanFrom]
    exact .pure ha₁₀.tokens trivial rfl
  | print hmark hl hvalue hr =>
    rw [ha.kind hmark]
    refine .advance hmark ha fun s₁ ha₁ => .expect hl ha₁ fun s₂ ha₂ => ?_
    refine ((ih.exprAt hvalue ha₂.first (.of_mark hr)).read ha₂ ?_).trim
    rintro a s₃ ha₃ rfl
    refine .expect hr ha₃.last fun s₄ ha₄ => ?_
    rw [accepts_spanFrom]
    exact .pure ha₄.tokens trivial rfl
  | id hname =>
    rw [ha.last.kind hname.mark, ha.last.literal hname]
    refine .advance hname.mark ha.last fun s₁ ha₁ => ?_
    have hhead : s₁.first = rest.headD default := by rw [TokenInput.first, ha₁.tokens]; rfl
    rw [accepts_at?, hhead, if_neg (by simpa using hends.1), accepts_at?, hhead,
      if_neg (by simpa using hends.2), accepts_spanFrom]
    exact .pure ha₁.tokens trivial rfl
  | call hname hargs =>
    rw [ha.kind hname.mark, ha.literal hname]
    refine .advance hname.mark ha fun s₁ ha₁ => ?_
    obtain ⟨l, us, rfl, hl⟩ := hargs.exists_mark
    rw [accepts_at?, ha₁.kind hl, if_pos (by simp)]
    exact (ih.args hargs ha₁).close fun _ _ h => h ▸ rfl
  | send hreceiver hdot hmethod hargs =>
    rw [ha.kind hreceiver.mark, ha.literal hreceiver]
    refine .advance hreceiver.mark ha fun s₁ ha₁ => ?_
    rw [accepts_at?, ha₁.kind hdot, if_neg (by simp), accepts_at?, ha₁.kind hdot,
      if_pos (by simp)]
    refine .advance hdot ha₁ fun s₂ ha₂ => .identifier hmethod ha₂ fun s₃ ha₃ => ?_
    exact (ih.args hargs ha₃).close fun _ _ h => h ▸ rfl

theorem args_succ (ih : ExprsAccept fuel) {as : List Phrase} (h : Enclosed (ExprOf 0) ts as)
    (ha : Ahead s ts rest) :
    Accepts (Parser.args (fuel + 1)) s rest (PhrasesInRange as) fun a => phrases a = as := by
  rw [Parser.args]
  cases h with
  | none hl hr =>
    refine .expect hl ha fun s₁ ha₁ => ?_
    rw [accepts_at?, ha₁.last.kind hr, if_pos (by simp)]
    exact .advance hr ha₁.last fun s₂ ha₂ => .pure ha₂.tokens trivial rfl
  | some hl hlist hr =>
    refine .expect hl ha fun s₁ ha₁ => ?_
    obtain ⟨us, vs, a, rfl, he⟩ := hlist.exists_head
    have hhead := (ha₁.first.kind_ne he).1
    rw [accepts_at?, if_neg (by simpa using hhead)]
    refine ((ih.someArgs hlist ha₁.first (hr.kind_headD rest)).read ha₁ ?_).trim
    rintro as s₂ ha₂ rfl
    exact .expect hr ha₂.last fun s₃ ha₃ => .pure ha₃.tokens trivial rfl

/-- Arguments are read to the last one: behind it comes the parenthesis, which neither goes on with
the expression nor is a comma. -/
theorem someArgs_succ (ih : ExprsAccept fuel) {as : List Phrase} (h : Separated (ExprOf 0) ts as)
    (ha : Ahead s ts rest) (hr : (rest.headD default).kind = .rparen) :
    Accepts (Parser.someArgs (fuel + 1)) s rest (PhrasesInRange as) fun a => phrases a = as := by
  rw [Parser.someArgs]
  cases h with
  | one hhead =>
    have hstops : Stops 0 rest := by
      refine ⟨⟨?_, ?_⟩, ?_⟩ <;> rw [hr]
      · simp
      · simp
      · exact fun _ h => by cases h
    refine (ih.exprAt hhead ha hstops).bind ?_
    rintro a s₁ hs₁ rfl
    rw [accepts_at?, TokenInput.first, hs₁, hr, if_neg (by simp)]
    exact .pure hs₁ trivial rfl
  | more hhead hcomma htail =>
    refine (ih.exprAt hhead ha.first (.of_mark_append hcomma)).read ha ?_
    rintro a s₁ ha₁ rfl
    rw [accepts_at?, ha₁.kind hcomma, if_pos (by simp)]
    refine .advance hcomma ha₁ fun s₂ ha₂ => ?_
    refine ((ih.someArgs htail ha₂ hr).bind ?_).trim
    rintro as s₃ hs₃ rfl
    exact .pure hs₃ trivial rfl

end ExprsAccept

/-- Expressions that are derived are read. -/
theorem exprsAccept (fuel : Nat) : ExprsAccept fuel := by
  induction fuel with
  | zero =>
    exact ⟨fun _ _ _ => .outOfFuel, fun _ _ _ => .outOfFuel, fun _ _ _ => .outOfFuel,
      fun _ _ => .outOfFuel, fun _ _ _ => .outOfFuel⟩
  | succ fuel ih =>
    exact ⟨ih.exprAt_succ, ih.chain_succ, ih.factor_succ, ih.args_succ, ih.someArgs_succ⟩

theorem expr_accepts {ts : List Token} {e : Phrase} (h : ExprOf 0 ts e) (ha : Ahead s ts rest)
    (hstops : Stops 0 rest) : Accepts expr s rest e.InRange fun a => a.phrase = e := by
  rw [expr, accepts_fuelLeft]
  exact (exprsAccept _).exprAt h ha hstops

/-! ### Types and parameters -/

section

variable {s : TokenInput} {ts rest : List Token}

theorem annotation_accepts {ty : Ty} (h : TypeOf ts ty) (ha : Ahead s ts rest) :
    Accepts annotation s rest True fun a => a.ty = ty := by
  rw [Parser.annotation, accepts_current]
  cases h with
  | int hm | bool hm =>
    rw [ha.last.kind hm]
    exact .advance hm ha.last fun s₁ ha₁ => .pure ha₁.tokens trivial rfl
  | ref hn =>
    rw [ha.last.kind hn.mark, ha.last.literal hn]
    exact .advance hn.mark ha.last fun s₁ ha₁ => .pure ha₁.tokens trivial rfl

/-- A reader that always accepts the first part of what is ahead, and one of what follows. -/
theorem Accepts.read_true {x : Parser α} {f : α → Parser β} {us rest' : List Token}
    {Q : α → Prop} {good : Prop} {T : β → Prop}
    (hx : Accepts x s (us ++ rest) True Q) (h : Ahead s (ts ++ us) rest)
    (hf : ∀ a s', Ahead s' us rest → Q a → Accepts (f a) s' rest' good T) :
    Accepts (x >>= f) s rest' good T :=
  (hx.read h hf).congr (iff_of_eq (true_and good))

/-- Parameters are read to the last one: behind it comes the parenthesis, which is no comma. -/
theorem someParams_accepts {fuel : Nat} {ps : List (Text × Ty)} (h : Separated ParamOf ts ps)
    (ha : Ahead s ts rest) (hr : (rest.headD default).kind = .rparen) :
    Accepts (someParams fuel) s rest True fun a => a.map bareParam = ps := by
  induction fuel generalizing s ts ps with
  | zero => exact .outOfFuel
  | succ fuel ih =>
    rw [someParams, accepts_here]
    cases h with
    | one hp =>
      cases hp with
      | mk hname hcolon htype =>
        refine .identifier hname ha fun s₁ ha₁ => .expect hcolon ha₁ fun s₂ ha₂ =>
          (annotation_accepts htype ha₂).bind_true ?_
        rintro ann s₃ hs₃ rfl
        rw [accepts_spanFrom, accepts_at?, TokenInput.first, hs₃, hr, if_neg (by simp)]
        exact .pure hs₃ trivial rfl
    | more hp hcomma htail =>
      cases hp with
      | mk hname hcolon htype =>
        simp only [append_assoc] at ha
        refine .identifier hname ha fun s₁ ha₁ => .expect hcolon ha₁ fun s₂ ha₂ =>
          (annotation_accepts htype ha₂.first).read_true ha₂ ?_
        rintro ann s₃ ha₃ rfl
        rw [accepts_spanFrom, accepts_at?, ha₃.kind hcomma, if_pos (by simp)]
        refine .advance hcomma ha₃ fun s₄ ha₄ => (ih htail ha₄).bind_true ?_
        rintro ps s₅ hs₅ rfl
        exact .pure hs₅ trivial rfl

theorem params_accepts {ps : List (Text × Ty)} (h : Enclosed ParamOf ts ps)
    (ha : Ahead s ts rest) : Accepts params s rest True fun a => a.map bareParam = ps := by
  rw [params]
  cases h with
  | none hl hr =>
    refine .expect hl ha fun s₁ ha₁ => ?_
    rw [accepts_at?, ha₁.last.kind hr, if_pos (by simp), accepts_pure]
    exact .expect hr ha₁.last fun s₂ ha₂ => .pure ha₂.tokens trivial rfl
  | some hl hlist hr =>
    refine .expect hl ha fun s₁ ha₁ => ?_
    obtain ⟨us, vs, p, rfl, hp⟩ := hlist.exists_head
    obtain ⟨i, us, rfl, hname⟩ := hp.exists_mark
    rw [accepts_at?, ha₁.first.first.kind hname, if_neg (by simp), accepts_fuelLeft]
    refine (someParams_accepts hlist ha₁.first (hr.kind_headD rest)).read_true ha₁ ?_
    rintro ps s₂ ha₂ rfl
    exact .expect hr ha₂.last fun s₃ ha₃ => .pure ha₃.tokens trivial rfl

/-! ### Declarations -/

theorem varDecl_accepts {d : Clause} (h : DeclOf ts d) (ha : Ahead s ts rest)
    (hkind : s.first.kind = .kwVar) :
    Accepts varDecl s rest d.InRange fun v => (Decl.var v).clause = d := by
  cases h with
  | fn hroutine =>
    cases hroutine with
    | mk hfun =>
      rw [ha.kind hfun] at hkind
      cases hkind
  | var hvar hname hcolon htype hassign hvalue hsemi =>
    rw [varDecl, accepts_here]
    refine .expect hvar ha fun s₁ ha₁ => .identifier hname ha₁ fun s₂ ha₂ =>
      .expect hcolon ha₂ fun s₃ ha₃ => (annotation_accepts htype ha₃.first).read_true ha₃ ?_
    rintro ann s₄ ha₄ rfl
    refine .expect hassign ha₄ fun s₅ ha₅ => ?_
    refine ((expr_accepts hvalue ha₅.first (.of_mark hsemi)).read ha₅ ?_).trim
    rintro value s₆ ha₆ rfl
    refine .expect hsemi ha₆.last fun s₇ ha₇ => ?_
    rw [accepts_spanFrom]
    exact .pure ha₇.tokens trivial rfl

end

/-- The end of a function or method. -/
theorem body_accepts {body : Phrase} (hbody : ExprOf 0 us body) (hsemi : Mark .semicolon o)
    (ha : Ahead s (us ++ o) rest) {start : Position} {name : Text} {ret : Annotation}
    {ps : List Param} {ds : List Decl} :
    Accepts (do
      let body ← expr
      expect .semicolon
      return (⟨← spanFrom start, name, ret, ps, ds, body⟩ : Routine)) s rest body.InRange fun r =>
        r.clause = .fn name ret.ty (ps.map bareParam) (clauses ds) body := by
  refine ((expr_accepts hbody ha.first (.of_mark hsemi)).read ha ?_).trim
  rintro e s₁ ha₁ rfl
  refine .expect hsemi ha₁.last fun s₂ ha₂ => ?_
  rw [accepts_spanFrom]
  exact .pure ha₂.tokens trivial rfl

/-- What follows declarations and is not one more. -/
def NoDecl (rest : List Token) : Prop :=
  (rest.headD default).kind ≠ .kwVar ∧ (rest.headD default).kind ≠ .kwFun

theorem NoDecl.of_mark (ho : Mark k o) (rest : List Token)
    (hk : k ≠ .kwVar ∧ k ≠ .kwFun := by simp) : NoDecl (o ++ rest) := by
  rwa [NoDecl, ho.kind_headD]

theorem NoDecl.of_mark_append (ho : Mark k o) (rest : List Token)
    (hk : k ≠ .kwVar ∧ k ≠ .kwFun := by simp) : NoDecl ((o ++ us) ++ rest) := by
  rw [append_assoc]
  exact .of_mark ho _ hk

/-- Declarations that are derived are read if the fuel is enough. -/
structure DeclsAccept (fuel : Nat) : Prop where
  decls : ∀ {ts : List Token} {ds : List Clause} {rest : List Token} {s : TokenInput},
    Many DeclOf ts ds → Ahead s ts rest → NoDecl rest →
    Accepts (declsFor fuel) s rest (ClausesInRange ds) fun a => clauses a = ds
  routine : ∀ {ts : List Token} {d : Clause} {rest : List Token} {s : TokenInput},
    RoutineOf ts d → Ahead s ts rest →
    Accepts (routineFor fuel) s rest d.InRange fun r => r.clause = d

namespace DeclsAccept

variable {fuel : Nat} {s : TokenInput} {ts rest : List Token}

/-- Declarations are read until a token comes that starts none. -/
theorem decls_succ (ih : DeclsAccept fuel) {ds : List Clause} (h : Many DeclOf ts ds)
    (ha : Ahead s ts rest) (hnext : NoDecl rest) :
    Accepts (declsFor (fuel + 1)) s rest (ClausesInRange ds) fun a => clauses a = ds := by
  rw [declsFor, accepts_current]
  cases h with
  | nil =>
    have hkind : NoDecl s.tokens := by rwa [ha.tokens]
    split
    case h_1 hvar => exact absurd hvar hkind.1
    case h_2 hfun => exact absurd hfun hkind.2
    case h_3 => exact .pure ha.tokens trivial rfl
  | cons hd hds =>
    cases hd with
    | var hvar hname hcolon htype hassign hvalue hsemi =>
      have hd := DeclOf.var hvar hname hcolon htype hassign hvalue hsemi
      have hkind := ha.first.kind hvar
      rw [hkind]
      refine (varDecl_accepts hd ha.first hkind).read ha fun v s₁ ha₁ hv => ?_
      have hrest := ih.decls hds ha₁ hnext
      refine (hrest.bind fun a s₂ hs₂ has => ?_).trim
      exact .pure hs₂ trivial (congrArg₂ List.cons hv has)
    | fn hroutine =>
      obtain ⟨f, us, rfl, hfun⟩ := hroutine.exists_mark
      rw [ha.first.kind hfun]
      refine (ih.routine hroutine ha.first).read ha fun r s₁ ha₁ hr => ?_
      have hrest := ih.decls hds ha₁ hnext
      refine (hrest.bind fun a s₂ hs₂ has => ?_).trim
      exact .pure hs₂ trivial (congrArg₂ List.cons hr has)

/-- A function or a method.  Whether there are declarations in it is told by the token after the
parameters. -/
theorem routine_succ (ih : DeclsAccept fuel) {d : Clause} (h : RoutineOf ts d)
    (ha : Ahead s ts rest) :
    Accepts (routineFor (fuel + 1)) s rest d.InRange fun r => r.clause = d := by
  rw [routineFor, accepts_here]
  cases h with
  | mk hfun hname hcolon htype hparams hlocals hbody hsemi =>
    refine .expect hfun ha fun s₁ ha₁ => .identifier hname ha₁ fun s₂ ha₂ =>
      .expect hcolon ha₂ fun s₃ ha₃ => (annotation_accepts htype ha₃.first).read_true ha₃ ?_
    rintro ret s₄ ha₄ rfl
    refine (params_accepts hparams ha₄.first).read_true ha₄ ?_
    rintro ps s₅ ha₅ rfl
    cases hlocals with
    | none =>
      rw [nil_append] at ha₅
      have hhead := (ha₅.kind_ne hbody).2
      rw [accepts_at?, if_neg (by simpa using hhead), accepts_pure]
      exact (body_accepts hbody hsemi ha₅).congr (iff_of_eq (true_and _).symm)
    | some hlet hds hne hin =>
      simp only [append_assoc] at ha₅
      rw [accepts_at?, ha₅.kind hlet, if_pos (by simp)]
      refine .advance hlet ha₅ fun s₆ ha₆ => ?_
      refine (ih.decls hds ha₆.first (.of_mark_append hin _)).read ha₆ ?_
      rintro ds s₇ ha₇ rfl
      have hsome : ds.isEmpty = false := by
        cases ds with
        | nil => exact absurd rfl hne
        | cons => rfl
      rw [accepts_current, hsome, if_neg Bool.false_ne_true]
      refine .expect hin ha₇ fun s₈ ha₈ => ?_
      rw [accepts_pure]
      exact body_accepts hbody hsemi ha₈

end DeclsAccept

/-- Declarations that are derived are read. -/
theorem declsAccept (fuel : Nat) : DeclsAccept fuel := by
  induction fuel with
  | zero => exact ⟨fun _ _ _ => .outOfFuel, fun _ _ => .outOfFuel⟩
  | succ fuel ih => exact ⟨ih.decls_succ, ih.routine_succ⟩

section

variable {s : TokenInput} {ts rest : List Token}

theorem decls_accepts {ds : List Clause} (h : Many DeclOf ts ds) (ha : Ahead s ts rest)
    (hnext : NoDecl rest) : Accepts decls s rest (ClausesInRange ds) fun a => clauses a = ds := by
  rw [decls, accepts_fuelLeft]
  exact (declsAccept _).decls h ha hnext

/-! ### Classes -/

theorem methodsFor_accepts {fuel : Nat} {ds : List Clause} (h : Many RoutineOf ts ds)
    (ha : Ahead s ts rest) (hnext : NoDecl rest) :
    Accepts (methodsFor fuel) s rest (ClausesInRange ds) fun a => methodClauses a = ds := by
  induction fuel generalizing s ts ds with
  | zero => exact .outOfFuel
  | succ fuel ih =>
    rw [methodsFor, accepts_at?]
    cases h with
    | nil =>
      have hkind : NoDecl s.tokens := by rwa [ha.tokens]
      rw [if_neg (by simpa using hkind.2)]
      exact .pure ha.tokens trivial rfl
    | cons hd hds =>
      obtain ⟨f, us, rfl, hfun⟩ := hd.exists_mark
      rw [ha.first.kind hfun, if_pos (by simp), accepts_fuelLeft]
      refine ((declsAccept _).routine hd ha.first).read ha fun r s₁ ha₁ hr => ?_
      have hrest := ih hds ha₁
      refine (hrest.bind fun a s₂ hs₂ has => ?_).trim
      exact .pure hs₂ trivial (congrArg₂ List.cons hr has)

/-- The end of a class. -/
theorem members_accepts {ps l ms r : List Token} {fields : List (Text × Ty)}
    {methods : List Clause} (hps : Enclosed ParamOf ps fields) (hl : Mark .lbrace l)
    (hms : Many RoutineOf ms methods) (hr : Mark .rbrace r)
    (ha : Ahead s (ps ++ (l ++ (ms ++ r))) rest) {start : Position} {name : Text}
    {super : Option Text} :
    Accepts (do
      let ps ← params
      expect .lbrace
      let methods ← methodsFor (← fuelLeft)
      expect .rbrace
      let fields := ps.map fun p => (⟨p.span, p.name, p.annotation, 0⟩ : Field)
      return (⟨← spanFrom start, name, super, fields, methods, none, none⟩ : ClassDecl)) s rest
      (ClausesInRange methods) fun c => c.clause = .cls name super fields methods := by
  refine (params_accepts hps ha.first).read_true ha ?_
  rintro ps s₁ ha₁ rfl
  refine .expect hl ha₁ fun s₂ ha₂ => ?_
  rw [accepts_fuelLeft]
  refine ((methodsFor_accepts hms ha₂.first (.of_mark hr rest)).read ha₂ ?_).trim
  rintro ms s₃ ha₃ rfl
  refine .expect hr ha₃.last fun s₄ ha₄ => ?_
  rw [accepts_spanFrom]
  refine .pure ha₄.tokens trivial ?_
  rw [ClassDecl.clause, map_map]
  rfl

theorem classDecl_accepts {c : Clause} (h : ClassOf ts c) (ha : Ahead s ts rest) :
    Accepts classDecl s rest c.InRange fun a => a.clause = c := by
  rw [classDecl, accepts_here]
  cases h with
  | mk hclass hname hsuper hps hl hms hr =>
    refine .expect hclass ha fun s₁ ha₁ => .identifier hname ha₁ fun s₂ ha₂ => ?_
    cases hsuper with
    | none =>
      obtain ⟨o, us, rfl, ho⟩ := hps.exists_mark
      rw [nil_append] at ha₂
      rw [accepts_at?, ha₂.first.kind ho, if_neg (by simp), accepts_pure]
      exact members_accepts hps hl hms hr ha₂
    | some hextends hsuper =>
      rw [append_assoc] at ha₂
      rw [accepts_at?, ha₂.kind hextends, if_pos (by simp)]
      refine .advance hextends ha₂ fun s₃ ha₃ => ?_
      rw [bind_map_left]
      refine .identifier hsuper ha₃ fun s₄ ha₄ => ?_
      exact members_accepts hps hl hms hr ha₄

theorem classesFor_accepts {fuel : Nat} {cs : List Clause} (h : Many ClassOf ts cs)
    (ha : Ahead s ts rest) (hnext : (rest.headD default).kind ≠ .kwClass) :
    Accepts (classesFor fuel) s rest (ClausesInRange cs) fun a => a.map ClassDecl.clause = cs := by
  induction fuel generalizing s ts cs with
  | zero => exact .outOfFuel
  | succ fuel ih =>
    rw [classesFor, accepts_at?]
    cases h with
    | nil =>
      have hkind : s.first.kind ≠ .kwClass := by rwa [TokenInput.first, ha.tokens]
      rw [if_neg (by simpa using hkind)]
      exact .pure ha.tokens trivial rfl
    | cons hc hcs =>
      obtain ⟨o, us, rfl, hclass⟩ := hc.exists_mark
      rw [ha.first.kind hclass, if_pos (by simp)]
      refine (classDecl_accepts hc ha.first).read ha fun c s₁ ha₁ hr => ?_
      have hrest := ih hcs ha₁
      refine (hrest.bind fun a s₂ hs₂ has => ?_).trim
      exact .pure hs₂ trivial (congrArg₂ List.cons hr has)

/-! ### Programs -/

/-- What follows the classes of a program is not one more. -/
theorem kind_ne_kwClass {ds i : List Token} {decls : List Clause} (hds : Many DeclOf ds decls)
    (hin : Mark .kwIn i) : (((ds ++ i) ++ rest).headD default).kind ≠ .kwClass := by
  cases hds with
  | nil =>
    rw [nil_append, hin.kind_headD]
    decide
  | cons hd _ =>
    cases hd with
    | var hvar =>
      simp only [append_assoc, hvar.kind_headD]
      decide
    | fn hroutine =>
      obtain ⟨f, us, rfl, hfun⟩ := hroutine.exists_mark
      simp only [append_assoc, hfun.kind_headD]
      decide

/-- The global declarations.  There has to be a class or another declaration, or the parser reports
that there is none. -/
theorem letPart_accepts {l cs ds i : List Token} {classes decls : List Clause}
    (hlet : Mark .kwLet l) (hcs : Many ClassOf cs classes) (hds : Many DeclOf ds decls)
    (hne : classes ≠ [] ∨ decls ≠ []) (hin : Mark .kwIn i)
    (ha : Ahead s (l ++ (cs ++ (ds ++ i))) rest) :
    Accepts letPart s rest (ClausesInRange classes ∧ ClausesInRange decls) fun a =>
      a.1.map ClassDecl.clause = classes ∧ clauses a.2 = decls := by
  rw [letPart]
  refine .advance hlet ha fun s₁ ha₁ => ?_
  rw [accepts_fuelLeft]
  refine (classesFor_accepts hcs ha₁.first (kind_ne_kwClass hds hin)).read ha₁ ?_
  rintro cs s₂ ha₂ rfl
  refine ((decls_accepts hds ha₂.first (.of_mark hin rest)).read ha₂ ?_).trim
  rintro ds s₃ ha₃ rfl
  have hsome : (cs.isEmpty && ds.isEmpty) = false := by
    cases cs with
    | cons => rfl
    | nil =>
      cases ds with
      | cons => rfl
      | nil => exact absurd rfl (hne.resolve_left (not_not_intro rfl))
  rw [accepts_current, hsome, if_neg Bool.false_ne_true]
  exact .expect hin ha₃.last fun s₄ ha₄ => .pure ha₄.tokens trivial ⟨rfl, rfl⟩

/-- The end of a program. -/
theorem programEnd_accepts {us o : List Token} {t : Token} {body : Phrase}
    (hbody : ExprOf 0 us body) (hsemi : Mark .semicolon o) (ht : t.kind = .eof)
    (ha : Ahead s (us ++ o) [t]) {start : Position} {cs : List ClassDecl} {ds : List Decl} :
    Accepts (do
      let body ← expr
      expect .semicolon
      let t ← current
      if t.kind ≠ .eof then failAt t.pos (.afterEnd t)
      return (⟨← spanFrom start, cs, ds, body⟩ : Program)) s [t] body.InRange fun p =>
        p.script = ⟨cs.map ClassDecl.clause, clauses ds, body⟩ := by
  refine ((expr_accepts hbody ha.first (.of_mark hsemi)).read ha ?_).trim
  rintro e s₁ ha₁ rfl
  refine .expect hsemi ha₁.last fun s₂ ha₂ => ?_
  have hend : s₂.first.kind = .eof := by rwa [TokenInput.first, ha₂.tokens]
  rw [accepts_current, if_neg (not_not_intro hend), accepts_spanFrom]
  exact .pure ha₂.tokens trivial rfl

/-- A whole program is accepted if the end of input follows it. -/
theorem program_accepts {script : Script} {t : Token} (h : ScriptOf ts script)
    (ht : t.kind = .eof) (ha : Ahead s ts [t]) :
    Accepts program s [t] script.InRange fun p => p.script = script := by
  rw [program, ha.accepts_checkLexical, accepts_here, accepts_at?]
  cases h with
  | mk hglobals hbody hsemi =>
    cases hglobals with
    | none =>
      rw [nil_append] at ha
      have hhead := (ha.kind_ne hbody).2
      rw [if_neg (by simpa using hhead), accepts_pure]
      refine (programEnd_accepts hbody hsemi ht ha).congr ?_
      exact ⟨fun hb => ⟨trivial, trivial, hb⟩, fun hb => hb.2.2⟩
    | some hlet hcs hds hne hin =>
      have hkind := ha.first.kind hlet
      rw [hkind, if_pos (by simp)]
      refine ((letPart_accepts hlet hcs hds hne hin ha.first).read ha ?_).congr
        and_assoc
      rintro ⟨cs, ds⟩ s₁ ha₁ ⟨rfl, rfl⟩
      exact programEnd_accepts hbody hsemi ht ha₁

end

end Parser

/-! ### Texts -/

/-- The tokens of a text before its end, or up to the first lexical error. -/
def Token.sentence (source : Text) : List Token :=
  (Token.scan source).takeWhile fun t => t.kind ≠ .eof

namespace Token

variable {source : Text}

/-- Before the last token of a text there is neither an end nor an error. -/
theorem kind_of_mem {ts : List Token} {t u : Token} (h : scan source = ts ++ [t]) (hu : u ∈ ts) :
    u.kind ≠ .eof ∧ u.kind ≠ .error := by
  have hinner := (legible_scan source).inner u (by rwa [h, dropLast_concat])
  simpa [TokenKind.isLast] using hinner

theorem sentence_eq {ts : List Token} {t : Token} (h : scan source = ts ++ [t])
    (ht : t.kind = .eof) : sentence source = ts := by
  rw [sentence, h, takeWhile_append_of_pos]
  · simp [ht]
  · intro u hu
    simpa using (kind_of_mem h hu).1

/-- A text without lexical errors has an end. -/
theorem scan_eq_sentence (h : ∀ t ∈ sentence source, t.kind ≠ .error) :
    ∃ t, scan source = sentence source ++ [t] ∧ t.kind = .eof := by
  obtain ⟨ts, t, hts, hlast⟩ := (closed_scan source).last
  by_cases ht : t.kind = .eof
  · exact ⟨t, by rw [sentence_eq hts ht, hts], ht⟩
  · -- Otherwise the last token is an error, and no token before it is an end.
    have herror : t.kind = .error := by simpa [TokenKind.isLast, ht] using hlast
    have hmem : t ∈ sentence source := by
      rw [sentence, hts, takeWhile_append_of_pos]
      · simp [ht]
      · intro u hu
        simpa using (kind_of_mem hts hu).1
    exact absurd herror (h t hmem)

end Token

namespace Program

/-- A text whose tokens the grammar derives is parsed if the integers of the tree are in range. -/
theorem parse_of_scriptOf {source : Text} {script : Script}
    (hflaw : ∀ t ∈ Token.sentence source, t.kind ≠ .error)
    (h : ScriptOf (Token.sentence source) script) :
    (script.InRange → ∃ p, parse source = .ok p ∧ p.script = script) ∧
      (¬ script.InRange → ∃ d, parse source = .error d) := by
  obtain ⟨t, hscan, ht⟩ := Token.scan_eq_sentence hflaw
  have ha : Parser.Ahead ⟨Token.scan source, default⟩ (Token.sentence source) [t] := by
    refine ⟨hscan, ?_, cons_ne_nil _ _⟩
    intro u hu
    rw [hscan] at hu
    rcases mem_append.mp hu with hu | hu
    · exact hflaw u hu
    · rw [mem_singleton.mp hu, ht]
      decide
  have hrun := Parser.program_accepts h ht ha
  rw [parse, ofTokens]
  constructor
  · intro hrange
    obtain ⟨p, s', hp, -, hscript⟩ | ⟨d, hd, hfuel⟩ := hrun.accept hrange
    · exact ⟨p, by rw [hp]; rfl, hscript⟩
    · exact absurd hfuel (cause_of_parse (by rw [parse, ofTokens, hd]; rfl))
  · intro hrange
    obtain ⟨d, hd⟩ := hrun.reject hrange
    exact ⟨d, by rw [hd]; rfl⟩

/-- A text that is parsed has no lexical error, and the grammar derives the program that is
returned. -/
theorem scriptOf_of_parse {source : Text} {p : Program} (h : parse source = .ok p) :
    (∀ t ∈ Token.sentence source, t.kind ≠ .error) ∧
      ScriptOf (Token.sentence source) p.script := by
  rcases parse_cases source with ⟨p', ts, t, hp', hts, ht, hscript, -⟩ | ⟨d, hd, -⟩
  · cases h.symm.trans hp'
    rw [Token.sentence_eq hts ht]
    exact ⟨fun u hu => (Token.kind_of_mem hts hu).2, hscript⟩
  · cases h.symm.trans hd

/-- **The parser accepts exactly its grammar.**  A text is parsed if and only if it has no lexical
error, the grammar derives its tokens up to the end, and every integer of the derivation, with the
minus sign in front of it, lies in the signed 64-bit range.  The program returned, without its
places, is then the tree of the derivation, and no other tree is derived. -/
theorem parse_eq_ok_iff_derivable (source : Text) :
    ((∃ p, parse source = .ok p) ↔
      (∀ t ∈ Token.sentence source, t.kind ≠ .error) ∧
        ∃ script, ScriptOf (Token.sentence source) script ∧ script.InRange) ∧
    ∀ p, parse source = .ok p →
      ∀ script, ScriptOf (Token.sentence source) script ↔ script = p.script := by
  refine ⟨⟨?_, ?_⟩, ?_⟩
  · rintro ⟨p, hp⟩
    obtain ⟨hflaw, hscript⟩ := scriptOf_of_parse hp
    exact ⟨hflaw, p.script, hscript, p.script_inRange⟩
  · rintro ⟨hflaw, script, hscript, hrange⟩
    obtain ⟨p, hp, -⟩ := (parse_of_scriptOf hflaw hscript).1 hrange
    exact ⟨p, hp⟩
  · intro p hp script
    obtain ⟨hflaw, hderived⟩ := scriptOf_of_parse hp
    constructor
    · intro hscript
      by_cases hrange : script.InRange
      · obtain ⟨p', hp', hs⟩ := (parse_of_scriptOf hflaw hscript).1 hrange
        cases hp.symm.trans hp'
        exact hs.symm
      · -- Another tree with an integer out of range would make the parser fail.
        obtain ⟨d, hd⟩ := (parse_of_scriptOf hflaw hscript).2 hrange
        cases hp.symm.trans hd
    · rintro rfl
      exact hderived

-- Operators of one level associate to the left.
example : (parse "7-2-1;").map script =
    .ok ⟨[], [], .binary .minus (.binary .minus (.int 7) (.int 2)) (.int 1)⟩ := by rfl

end Program

end Foolscap
