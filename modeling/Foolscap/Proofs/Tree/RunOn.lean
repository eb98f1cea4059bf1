import Foolscap.Proofs.Tree.Derived

/-!
# The parser that runs on

The parser as it is when nothing makes it stop.  An error sets a flag, and the parser runs on:
readers look at the flag where they are told to, loops stop at it, and nodes that lack a part are
made and handed on.  What keeps a second error from being reported and such a node from getting out
is the flag, and nothing else.

`RunOn.parse_eq` ties it to the parser of the library.  Every reader that runs on agrees with the
one that stops at the first error: without an error both return the same and stand at the same
token, and after one the reader that runs on still ends, with the flag set and nothing more
reported.

## Design Notes

Nothing but the tokens makes the parser end, so its readers are given a bound: on the turns of each
loop, and on how deep operands and declarations are nested.  A reader that comes to the bound has no
result, and neither has one that asks for a token behind the last one.  That there is a result, for
every bound that is large enough, is to be shown.

A reader looks at the bound only after it has looked at the flag, so that after an error it ends
whatever the bound is.  Once there was an error no token is expected any more: to leave a list of
arguments is then the same as to go on behind its loop.
-/

namespace Foolscap

open Token List

/-- The input of a parser that runs on, whether there was an error, and what was reported. -/
structure ParserState where
  input : TokenInput
  failed : Bool
  diagnostics : List Diagnostic

/-- A reader of tokens that runs on after an error. -/
abbrev RunOn := StateT ParserState Option

namespace RunOn

/-! ### Tokens -/

/-- Whether there was an error. -/
def failed : RunOn Bool := return (← get).failed

/-- The token to be consumed next. -/
def current : RunOn Token := return (← get).input.first

/-- The token after the current one. -/
def following : RunOn Token := do
  match (← get).input.tokens with
  | _ :: t :: _ => return t
  | _ => failure

/-- Whether the current token is of a kind. -/
def at? (k : TokenKind) : RunOn Bool := return (← current).kind = k

/-- The place where the current token starts. -/
def here : RunOn Position := return (← current).pos

/-- The span from a place to the end of the last consumed token. -/
def spanFrom (start : Position) : RunOn Span := return ⟨start, (← get).input.lastStop⟩

/-- Report an error at the current token, unless there was one before. -/
def report (e : SyntaxError) : RunOn Unit := do
  let c ← get
  if c.failed then return ()
  else set (⟨c.input, true, c.diagnostics ++ [⟨c.input.first.pos, .parsing e⟩]⟩ : ParserState)

/-- Report the current token if it is a lexical error. -/
def checkLexical : RunOn Unit := do
  let t ← current
  if t.kind = .error then report (.lexical t.literal)

/-- Consume the current token. -/
def advance : RunOn Unit := do
  let c ← get
  match c.input.tokens with
  | t :: u :: rest =>
    set { c with input := ⟨u :: rest, t.stop⟩ }
    checkLexical
  | _ => failure

/-- Consume a token of a kind and tell whether it was there.  Nothing is there after an error. -/
def expect (k : TokenKind) : RunOn Bool := do
  if ← failed then return false
  let t ← current
  if t.kind = k then
    advance
    return true
  else
    report (.expected k t)
    return false

/-- The bound is used up: it cannot be told how the reader ends, unless there was an error. -/
def exhausted {β : Type} (b : β) : RunOn β := do
  if ← failed then return b
  failure

/-- Consume an identifier. -/
def identifier : RunOn Text := do
  let t ← current
  if ← expect .identifier then return t.literal else return []

/-! ### Readers that agree -/

variable {α β γ δ : Type}

/-- After an error a reader ends, and nothing more is reported. -/
def Stays (y : RunOn β) (s : TokenInput) : Prop :=
  Legible s.tokens → ∀ ds, ∃ b s', Legible s'.tokens ∧
    y.run ⟨s, true, ds⟩ = some (b, ⟨s', true, ds⟩)

/-- The tokens are those of a text, and a bound is large enough for them. -/
structure Ready (bound : Nat) (s : TokenInput) : Prop where
  legible : Legible s.tokens
  large : 8 * (s.tokens.length + 1) ≤ bound

/-- What a reader that runs on comes to where one that stops comes to a result.  The values
correspond if there was no error. -/
inductive Matches (bound : Nat) (f : α → β) :
    Except Diagnostic (α × TokenInput) → Option (β × ParserState) → Prop where
  | done {a : α} {s : TokenInput} (ready : Ready bound s) :
      Matches bound f (.ok (a, s)) (some (f a, ⟨s, false, []⟩))
  | failed {d : Diagnostic} {b : β} {s : TokenInput} (legible : Legible s.tokens) :
      Matches bound f (.error d) (some (b, ⟨s, true, [d]⟩))
  | gaveUp {d : Diagnostic} {r : Option (β × ParserState)} (fuel : d.cause = .parsing .outOfFuel) :
      Matches bound f (.error d) r

/-- A reader that runs on does at a place what one that stops at the first error does, as far as
that one has the fuel. -/
def Agrees (bound : Nat) (f : α → β) (x : Parser α) (y : RunOn β) (s : TokenInput) : Prop :=
  (Ready bound s → Matches bound f (x.run s) (y.run ⟨s, false, []⟩)) ∧ Stays y s

theorem Stays.pure {b : β} {s : TokenInput} : Stays (Pure.pure b) s :=
  fun hs _ => ⟨b, s, hs, rfl⟩

theorem Stays.guard {b : β} {y : RunOn β} {s : TokenInput} :
    Stays (failed >>= fun failed => if failed = true then Pure.pure b else y) s :=
  .pure

/-- A loop that looks at the current token before it looks at the flag. -/
theorem Stays.atGuard {kind : TokenKind} {b : β} {y : RunOn β} {s : TokenInput} :
    Stays (at? kind >>= fun here => if here = true then
      failed >>= fun failed => if failed = true then Pure.pure b else y
      else Pure.pure b) s := by
  intro hs ds
  refine ⟨b, s, hs, ?_⟩
  show StateT.run (if decide (s.first.kind = kind) = true then _ else _) _ = _
  split <;> rfl

/-- After an error what follows is still run, with whatever the reader has returned. -/
theorem Stays.bind {y : RunOn β} {k : β → RunOn δ} {s : TokenInput} (hy : Stays y s)
    (hk : ∀ b s, Stays (k b) s) : Stays (y >>= k) s := by
  intro hs ds
  obtain ⟨b, s', hs', hrun⟩ := hy hs ds
  rw [StateT.run_bind, hrun]
  exact hk b s' hs' ds

namespace Agrees

variable {bound : Nat} {f : α → β} {h : γ → δ} {x : Parser α} {y : RunOn β} {g : α → Parser γ}
  {k : β → RunOn δ} {s : TokenInput}

theorem pure {a : α} {b : β} (hf : f a = b) : Agrees bound f (Pure.pure a) (Pure.pure b) s :=
  ⟨fun hs => hf ▸ .done hs, .pure⟩

/-- Readers in sequence.  What follows a reader that runs on has to end whatever that one
returned. -/
theorem bindTo (hx : Agrees bound f x y s) (hk : ∀ a s, Agrees bound h (g a) (k (f a)) s)
    (hstays : ∀ b s, Stays (k b) s) : Agrees bound h (x >>= g) (y >>= k) s := by
  refine ⟨fun hs => ?_, hx.2.bind hstays⟩
  have hrun := hx.1 hs
  rw [StateT.run_bind, StateT.run_bind]
  generalize x.run s = r at hrun ⊢
  generalize y.run ⟨s, false, []⟩ = r' at hrun ⊢
  cases hrun with
  | done hs' => exact (hk _ _).1 hs'
  | failed hs' =>
    -- One parser has stopped.  The other one goes on with a value that means nothing.
    obtain ⟨b, s', hs', hrun⟩ := hstays _ _ hs' _
    show Matches bound h _ ((k _).run _)
    rw [hrun]
    exact .failed hs'
  | gaveUp hfuel => exact .gaveUp hfuel

/-- Readers in sequence, where the first one returns the same in both parsers. -/
theorem bind {y : RunOn α} {k : α → RunOn δ} (hx : Agrees bound id x y s)
    (hk : ∀ a s, Agrees bound h (g a) (k a) s) : Agrees bound h (x >>= g) (y >>= k) s :=
  hx.bindTo hk fun a s => (hk a s).2

/-- A reader that looks at the flag first. -/
theorem guard {b : β} (hx : Agrees bound f x y s) :
    Agrees bound f x (failed >>= fun failed => if failed = true then Pure.pure b else y) s :=
  ⟨hx.1, .guard⟩

/-- An error at the current token, whatever was to follow. -/
theorem fail {e : SyntaxError} {k : Unit → RunOn β} (hk : Stays (k ()) s) :
    Agrees bound f (Parser.failAt s.first.pos e) (report e >>= k) s := by
  refine ⟨fun hs => ?_, hk⟩
  obtain ⟨b, s', hs', hrun⟩ := hk hs.legible [⟨s.first.pos, .parsing e⟩]
  show Matches bound f _ ((k ()).run ⟨s, true, [⟨s.first.pos, .parsing e⟩]⟩)
  rw [hrun]
  exact .failed hs'

/-- Nothing is asked where the parser that stops has given up, except that the other one ends after
an error. -/
theorem outOfFuel (hy : Stays y s) :
    Agrees bound f (Parser.here >>= fun p => Parser.failAt p .outOfFuel) y s :=
  ⟨fun _ => .gaveUp rfl, hy⟩

/-- A loop that adds to the end of a list agrees with a recursion that puts the first ones in
front. -/
theorem prepend {as : List α} {a : α} {x : Parser (List α)} {y : RunOn (List α)}
    (hx : Agrees bound (as ++ [a] ++ ·) x y s) :
    Agrees bound (as ++ ·) (x >>= fun bs => Pure.pure (a :: bs)) y s := by
  refine ⟨fun hs => ?_, hx.2⟩
  have hrun := hx.1 hs
  rw [StateT.run_bind]
  generalize x.run s = r at hrun ⊢
  generalize y.run ⟨s, false, []⟩ = r' at hrun ⊢
  cases hrun with
  | done hs' =>
    rw [append_assoc]
    exact .done hs'
  | failed hs' => exact .failed hs'
  | gaveUp hfuel => exact .gaveUp hfuel

/-- The tokens may be taken to be those of a text. -/
theorem of_legible (hx : Legible s.tokens → Agrees bound f x y s) : Agrees bound f x y s :=
  ⟨fun hs => (hx hs.legible).1 hs, fun hs => (hx hs).2 hs⟩

end Agrees

/-! ### Readers that consume nothing -/

section

variable {bound : Nat} {h : γ → δ} {y : RunOn δ} {s : TokenInput}

theorem agrees_current {g : Token → Parser γ} {k : Token → RunOn δ} :
    Agrees bound h (Parser.current >>= g) (current >>= k) s ↔
      Agrees bound h (g s.first) (k s.first) s :=
  Iff.rfl

theorem agrees_here {g : Position → Parser γ} {k : Position → RunOn δ} :
    Agrees bound h (Parser.here >>= g) (here >>= k) s ↔
      Agrees bound h (g s.first.pos) (k s.first.pos) s :=
  Iff.rfl

theorem agrees_at? {kind : TokenKind} {g : Bool → Parser γ} {k : Bool → RunOn δ} :
    Agrees bound h (Parser.at? kind >>= g) (at? kind >>= k) s ↔
      Agrees bound h (g (decide (s.first.kind = kind))) (k (decide (s.first.kind = kind))) s :=
  Iff.rfl

theorem agrees_spanFrom {start : Position} {g : Span → Parser γ} {k : Span → RunOn δ} :
    Agrees bound h (Parser.spanFrom start >>= g) (spanFrom start >>= k) s ↔
      Agrees bound h (g ⟨start, s.lastStop⟩) (k ⟨start, s.lastStop⟩) s :=
  Iff.rfl

/-- The fuel that is enough for the tokens left is within the bound. -/
theorem Agrees.fuelLeft {g : Nat → Parser γ} (hnext : ∀ fuel ≤ bound, Agrees bound h (g fuel) y s) :
    Agrees bound h (Parser.fuelLeft >>= g) y s :=
  ⟨fun hs => (hnext _ hs.large).1 hs, (hnext 0 (Nat.zero_le bound)).2⟩

theorem agrees_following {t u : Token} {rest : List Token} {g : Token → Parser γ}
    {k : Token → RunOn δ} (hts : s.tokens = t :: u :: rest) :
    Agrees bound h (Parser.following >>= g) (following >>= k) s ↔ Agrees bound h (g u) (k u) s := by
  obtain ⟨tokens, stop⟩ := s
  obtain rfl : tokens = t :: u :: rest := hts
  rfl

/-- A node is made with the span that was read. -/
theorem Agrees.spanned {start : Position} {n : Span → γ} {m : Span → δ} (hm : ∀ p, h (n p) = m p) :
    Agrees bound h (Parser.spanFrom start >>= fun p => Pure.pure (n p))
      (spanFrom start >>= fun p => Pure.pure (m p)) s :=
  agrees_spanFrom.mpr (.pure (hm _))

/-- A node is made unless there was an error, so that no node that lacks a part is handed on as a
whole one. -/
theorem Agrees.node {start : Position} {n : Span → γ} {m : Span → δ} {none : δ}
    (hm : ∀ p, h (n p) = m p) :
    Agrees bound h (Parser.spanFrom start >>= fun p => Pure.pure (n p))
      (failed >>= fun failed => if failed = true then Pure.pure none
        else spanFrom start >>= fun p => Pure.pure (m p)) s :=
  .guard (.spanned hm)

/-! ### Readers of one token -/

theorem Agrees.checkLexical {g : Unit → Parser γ} {k : Unit → RunOn δ}
    (hnext : Agrees bound h (g ()) (k ()) s) :
    Agrees bound h (Parser.checkLexical >>= g) (checkLexical >>= k) s := by
  rw [Parser.checkLexical, RunOn.checkLexical, bind_assoc, bind_assoc, agrees_current]
  split
  · exact .fail hnext.2
  · exact hnext

/-- Advancing needs another token behind the current one. -/
theorem Agrees.advance {g : Unit → Parser γ} {k : Unit → RunOn δ}
    {kind : TokenKind} (hkind : s.first.kind = kind)
    (hk : kind.isLast = false)
    (hnext : ∀ s', s.tokens = s.first :: s'.tokens → Agrees bound h (g ()) (k ()) s') :
    Agrees bound h (Parser.advance >>= g) (advance >>= k) s := by
  refine .of_legible fun hs => ?_
  -- A token that is not the last one has another one behind it.
  obtain ⟨t, u, rest, hts, hrest⟩ := Parser.Legible.exists_cons hs (hkind ▸ hk)
  obtain ⟨tokens, stop⟩ := s
  obtain rfl : tokens = t :: u :: rest := hts
  have hthen := (hnext ⟨u :: rest, t.stop⟩ rfl).checkLexical
  refine ⟨fun hready => hthen.1 ⟨hrest, ?_⟩, fun _ => hthen.2 hrest⟩
  exact Nat.le_trans (Nat.mul_le_mul_left 8 (Nat.le_succ _)) hready.large

/-- A token is expected.  It is not there, either, after an error. -/
theorem Agrees.expectTo {kind : TokenKind} {g : Unit → Parser γ} {k : Bool → RunOn δ}
    (hk : kind.isLast = false) (hnext : ∀ s, Agrees bound h (g ()) (k true) s)
    (hmissed : Stays (k false) s) :
    Agrees bound h (Parser.expect kind >>= g) (expect kind >>= k) s := by
  have hgoing : Agrees bound h (Parser.expect kind >>= g) (current >>= fun t =>
      (if t.kind = kind then RunOn.advance >>= fun _ => Pure.pure true
        else report (.expected kind t) >>= fun _ => Pure.pure false) >>= k) s := by
    rw [Parser.expect, bind_assoc, agrees_current]
    split
    · next hkind =>
      rw [bind_assoc]
      exact .advance hkind hk fun s' _ => hnext s'
    · rw [bind_assoc]
      exact .fail hmissed
  exact ⟨hgoing.1, hmissed⟩

/-- A token is expected, and what follows does not ask whether it was there. -/
theorem Agrees.expect {kind : TokenKind} {g : Unit → Parser γ}
    (hk : kind.isLast = false) (hnext : ∀ s, Agrees bound h (g ()) y s) :
    Agrees bound h (Parser.expect kind >>= g) (expect kind >>= fun _ => y) s :=
  .expectTo hk hnext (hnext s).2

/-- After an error there is no identifier, whatever the token is: the name is empty then. -/
theorem agrees_identifier : Agrees bound id Parser.identifier identifier s := by
  rw [Parser.identifier]
  exact agrees_current.mpr <| .expectTo rfl (fun _ => .pure rfl) .pure

end

/-! ### Expressions -/

/-- An integer literal, with or without the minus sign that was consumed before it. -/
def integer (start : Position) (negative : Bool) : RunOn Expr := do
  let t ← current
  let literal := if negative then 45 :: t.literal else t.literal
  match Text.toWord? literal with
  | none =>
    report (.badInteger literal)
    return .missing
  | some n =>
    advance
    return .int (← spanFrom start) n

theorem agrees_integer {bound : Nat} {s : TokenInput} {start : Position} {negative : Bool}
    (hk : s.first.kind = .integer) :
    Agrees bound id (Parser.integer start negative) (integer start negative) s := by
  rw [Parser.integer]
  refine agrees_current.mpr ?_
  dsimp only
  cases Text.toWord? (if negative then 45 :: s.first.literal else s.first.literal) with
  | none => exact .fail .pure
  | some n => exact .advance hk rfl fun s' _ => .spanned fun _ => rfl

/-- The operators of one level that follow an operand, and their right operands, for so many
turns. -/
def chain (next : RunOn Expr) (level : Nat) (start : Position) : Nat → Expr → RunOn Expr
  | 0, _ => exhausted .missing
  | n + 1, left => do
    if ← failed then return .missing
    match BinaryOp.ofToken? (← current).kind with
    | none => return left
    | some op =>
      if op.level = level then
        advance
        let right ← next
        if ← failed then return .missing
        chain next level start n (.binary (← spanFrom start) op left right)
      else return left

/-- An expression with operators of the `k` levels that bind most tightly. -/
def exprAt (operand : RunOn Expr) (n : Nat) : Nat → RunOn Expr
  | 0 => operand
  | k + 1 => do
    let start ← here
    let left ← exprAt operand n k
    chain (exprAt operand n k) (3 - k) start n left

/-- The arguments after those read so far. -/
def argsFrom (expr : RunOn Expr) : Nat → List Expr → RunOn (List Expr)
  | 0, as => exhausted as
  | n + 1, as => do
    if ← failed then return as
    let a ← expr
    if ← failed then return []
    if ← at? .comma then
      advance
      argsFrom expr n (as ++ [a])
    else return as ++ [a]

/-- Arguments between parentheses. -/
def args (expr : RunOn Expr) (n : Nat) : RunOn (List Expr) := do
  let _ ← expect .lparen
  if ← at? .rparen then
    advance
    return []
  else
    let as ← argsFrom expr n []
    let _ ← expect .rparen
    return as

/-- An operand, with operands in it that are nested at most so deep. -/
def factor : Nat → RunOn Expr
  | 0 => exhausted .missing
  | n + 1 => do
    if ← failed then return .missing
    let t ← current
    match t.kind with
    | .not =>
      advance
      let operand ← factor n
      if ← failed then return .missing
      return .not (← spanFrom t.pos) operand
    | .lparen =>
      advance
      let e ← exprAt (factor n) n 4
      let _ ← expect .rparen
      if ← failed then return .missing
      return e
    | .minus =>
      let u ← following
      if u.kind = .integer then
        advance
        integer t.pos true
      else
        report (.noNumber u)
        return .missing
    | .integer => integer t.pos false
    | .kwTrue =>
      advance
      return .bool (← spanFrom t.pos) true
    | .kwFalse =>
      advance
      return .bool (← spanFrom t.pos) false
    | .kwNull =>
      advance
      return .null (← spanFrom t.pos)
    | .kwNew =>
      advance
      let name ← identifier
      let as ← args (exprAt (factor n) n 4) n
      if ← failed then return .missing
      return .new (← spanFrom t.pos) name as none
    | .kwIf =>
      advance
      let test ← exprAt (factor n) n 4
      let _ ← expect .kwThen
      let _ ← expect .lbrace
      let yes ← exprAt (factor n) n 4
      let _ ← expect .rbrace
      let _ ← expect .kwElse
      let _ ← expect .lbrace
      let no ← exprAt (factor n) n 4
      let _ ← expect .rbrace
      if ← failed then return .missing
      return .cond (← spanFrom t.pos) test yes no
    | .kwPrint =>
      advance
      let _ ← expect .lparen
      let value ← exprAt (factor n) n 4
      let _ ← expect .rparen
      if ← failed then return .missing
      return .print (← spanFrom t.pos) value
    | .identifier =>
      advance
      if ← at? .lparen then
        let as ← args (exprAt (factor n) n 4) n
        if ← failed then return .missing
        return .call (← spanFrom t.pos) t.literal as none
      else if ← at? .dot then
        advance
        let method ← identifier
        let as ← args (exprAt (factor n) n 4) n
        if ← failed then return .missing
        return .send (← spanFrom t.pos) t.literal method as none none
      else return .id (← spanFrom t.pos) t.literal none
    | _ =>
      report (.noExpression t)
      return .missing

/-- An expression. -/
def expr (bound : Nat) : RunOn Expr := exprAt (factor bound) bound 4

section

variable {bound : Nat} {s : TokenInput}

/-! Each loop and each nested operand ends after an error, whatever the bound is. -/

/-- The loop over operators looks at the flag before each turn. -/
theorem stays_chain {next : RunOn Expr} {level : Nat} {start : Position} {n : Nat} {left : Expr} :
    Stays (chain next level start n left) s := by
  cases n <;> exact .guard

theorem stays_factor {n : Nat} : Stays (factor n) s := by
  cases n <;> exact .guard

/-- After an error all levels are gone through down to the operand, which is missing. -/
theorem stays_exprAt {operand : RunOn Expr} (h : ∀ s, Stays operand s) {n k : Nat} :
    Stays (exprAt operand n k) s := by
  induction k generalizing s with
  | zero => exact h s
  | succ k ih =>
    exact .bind (fun hs _ => ⟨_, s, hs, rfl⟩) fun _ _ => .bind ih fun _ _ => stays_chain

theorem stays_argsFrom {expr : RunOn Expr} {n : Nat} {as : List Expr} :
    Stays (argsFrom expr n as) s := by
  cases n <;> exact .guard

/-- The readers of expressions agree if the bound is no less than the fuel. -/
structure ExprsAgree (bound fuel : Nat) : Prop where
  exprAt {n k level : Nat} (hn : fuel ≤ n) (hk : k + level = 4) (s : TokenInput) :
    Agrees bound id (Parser.exprAt fuel level) (exprAt (factor n) n k) s
  chain {n m k level : Nat} (hn : fuel ≤ n) (hm : fuel ≤ m) (hk : k + level = 3) (start : Position)
    (left : Expr) (s : TokenInput) : Agrees bound id (Parser.chain fuel level start left)
      (chain (RunOn.exprAt (factor n) n k) level start m left) s
  factor {n : Nat} (hn : fuel ≤ n) (s : TokenInput) :
    Agrees bound id (Parser.factor fuel) (factor n) s
  args {n m : Nat} (hn : fuel ≤ n) (hm : fuel ≤ m) (s : TokenInput) :
    Agrees bound id (Parser.args fuel) (args (RunOn.exprAt (RunOn.factor n) n 4) m) s
  argsFrom {n m : Nat} (hn : fuel ≤ n) (hm : fuel ≤ m) (as : List Expr) (s : TokenInput) :
    Agrees bound (as ++ ·) (Parser.someArgs fuel)
      (argsFrom (RunOn.exprAt (RunOn.factor n) n 4) m as) s

namespace ExprsAgree

variable {fuel n m : Nat} (ih : ExprsAgree bound fuel) (hn : fuel ≤ n) (hm : fuel ≤ m)

include ih hn

/-- An operand.  Behind each of its parts the flag is set or the two parsers stand at the same
token, which is all that the rules for sequences ask for. -/
theorem factor_succ : Agrees bound id (Parser.factor (fuel + 1)) (RunOn.factor (n + 1)) s := by
  rw [Parser.factor]
  have hexpr : ∀ s, Agrees bound id (Parser.exprAt fuel 0) (RunOn.exprAt (RunOn.factor n) n 4) s :=
    ih.exprAt hn rfl
  have hargs : ∀ s, Agrees bound id (Parser.args fuel)
      (RunOn.args (RunOn.exprAt (RunOn.factor n) n 4) n) s := ih.args hn hn
  refine .guard ?_
  rw [agrees_current]
  generalize hkind : s.first.kind = kind
  cases kind with
  | not =>
    exact .advance hkind rfl fun s₁ _ => .bind (ih.factor hn s₁) fun e s₂ => .node fun _ => rfl
  | lparen =>
    exact .advance hkind rfl fun s₁ _ => .bind (hexpr s₁) fun e s₂ => .expect rfl fun s₃ =>
      .guard (.pure rfl)
  | minus =>
    refine .of_legible fun hs => ?_
    obtain ⟨t, u, rest, hts, -⟩ := Parser.Legible.exists_cons hs (hkind ▸ rfl)
    dsimp only
    rw [agrees_following hts]
    split
    · next hu =>
      refine .advance hkind rfl fun s₁ hs₁ => agrees_integer ?_
      rw [hts] at hs₁
      rw [TokenInput.first, ← (List.cons.inj hs₁).2]
      exact hu
    · exact .fail .pure
  | integer => exact agrees_integer hkind
  | kwTrue | kwFalse | kwNull => exact .advance hkind rfl fun s₁ _ => .spanned fun _ => rfl
  | kwNew =>
    exact .advance hkind rfl fun s₁ _ => .bind agrees_identifier fun name s₂ =>
      .bind (hargs s₂) fun as s₃ => .node fun _ => rfl
  | kwIf =>
    exact .advance hkind rfl fun s₁ _ => .bind (hexpr s₁) fun test s₂ => .expect rfl fun s₃ =>
      .expect rfl fun s₄ => .bind (hexpr s₄) fun yes s₅ => .expect rfl fun s₆ =>
      .expect rfl fun s₇ => .expect rfl fun s₈ => .bind (hexpr s₈) fun no s₉ =>
      .expect rfl fun s₁₀ => .node fun _ => rfl
  | kwPrint =>
    exact .advance hkind rfl fun s₁ _ => .expect rfl fun s₂ => .bind (hexpr s₂) fun value s₃ =>
      .expect rfl fun s₄ => .node fun _ => rfl
  | identifier =>
    refine .advance hkind rfl fun s₁ _ => ?_
    rw [agrees_at?]
    split
    · exact .bind (hargs s₁) fun as s₂ => .node fun _ => rfl
    · rw [agrees_at?]
      split
      · next hdot =>
        exact .advance (of_decide_eq_true hdot) rfl fun s₂ _ =>
          .bind agrees_identifier fun method s₃ => .bind (hargs s₃) fun as s₄ => .node fun _ => rfl
      · exact .spanned fun _ => rfl
  | _ => exact .fail .pure

/-- The levels of operators, counted from the tightest one here and from the loosest one there. -/
theorem exprAt_succ {k level : Nat} (hk : k + level = 4) :
    Agrees bound id (Parser.exprAt (fuel + 1) level) (RunOn.exprAt (RunOn.factor n) n k) s := by
  rw [Parser.exprAt]
  cases k with
  | zero =>
    rw [if_neg (by omega)]
    exact ih.factor hn s
  | succ k =>
    obtain rfl : level = 3 - k := by omega
    rw [if_pos (by omega)]
    exact agrees_here.mpr <| .bind (ih.exprAt hn (by omega) s) fun left s₁ =>
      ih.chain hn hn (by omega) _ left s₁

include hm

/-- A turn of the loop over operators.  The bound on turns and the bound on nested operands are
independent of each other. -/
theorem chain_succ {k level : Nat} (hk : k + level = 3) (start : Position) (left : Expr) :
    Agrees bound id (Parser.chain (fuel + 1) level start left)
      (RunOn.chain (RunOn.exprAt (RunOn.factor n) n k) level start (m + 1) left) s := by
  rw [Parser.chain]
  refine .guard ?_
  rw [agrees_current]
  cases hop : BinaryOp.ofToken? s.first.kind with
  | none => exact .pure rfl
  | some op =>
    dsimp only
    split
    · refine .advance rfl (Parser.kind_of_ofToken? hop).1 fun s₁ _ =>
        .bind (ih.exprAt hn (by omega) s₁) fun right s₂ => .guard ?_
      rw [agrees_spanFrom]
      exact ih.chain hn hm hk start _ s₂
    · exact .pure rfl

theorem argsFrom_succ (as : List Expr) :
    Agrees bound (as ++ ·) (Parser.someArgs (fuel + 1))
      (RunOn.argsFrom (RunOn.exprAt (RunOn.factor n) n 4) (m + 1) as) s := by
  rw [Parser.someArgs]
  refine .guard (.bind (ih.exprAt hn rfl s) fun a s₁ => .guard ?_)
  rw [agrees_at?]
  split
  · next hcomma =>
    exact .advance (of_decide_eq_true hcomma) rfl fun s₂ _ =>
      .prepend (ih.argsFrom hn hm (as ++ [a]) s₂)
  · exact .pure rfl

end ExprsAgree

/-- Arguments, once those that follow the first parenthesis agree. -/
theorem agrees_args {fuel n : Nat} {expr : RunOn Expr}
    (hfrom : ∀ s, Agrees bound ([] ++ ·) (Parser.someArgs fuel) (argsFrom expr n []) s) :
    Agrees bound id (Parser.args (fuel + 1)) (args expr n) s := by
  rw [Parser.args]
  refine .expect rfl fun s₁ => ?_
  rw [agrees_at?]
  split
  · next hparen => exact .advance (of_decide_eq_true hparen) rfl fun s₂ _ => .pure rfl
  · exact .bind (hfrom s₁) fun as s₂ => .expect rfl fun s₃ => .pure rfl

/-- The induction is on the fuel.  Without any, it is left to show that readers end after an
error. -/
theorem exprsAgree (bound fuel : Nat) : ExprsAgree bound fuel := by
  induction fuel with
  | zero =>
    have hfrom : ∀ {expr : RunOn Expr} {m : Nat} {as : List Expr} (s : TokenInput),
        Agrees bound (as ++ ·) (Parser.someArgs 0) (argsFrom expr m as) s :=
      fun s => .outOfFuel stays_argsFrom
    exact ⟨fun _ _ s => .outOfFuel (stays_exprAt fun _ => stays_factor),
      fun _ _ _ _ _ s => .outOfFuel stays_chain, fun _ s => .outOfFuel stays_factor,
      fun _ _ s => .outOfFuel (agrees_args hfrom).2, fun _ _ as s => hfrom s⟩
  | succ fuel ih =>
    refine ⟨fun hn hk s => ih.exprAt_succ (by omega) hk,
      fun {n m k level} hn hm hk start left s => ?_, fun {n} hn s => ?_,
      fun hn hm s => agrees_args (ih.argsFrom (by omega) (by omega) []),
      fun {n m} hn hm as s => ?_⟩
    · cases m with
      | zero => cases hm
      | succ m => exact ih.chain_succ (by omega) (by omega) hk start left
    · cases n with
      | zero => cases hn
      | succ n => exact ih.factor_succ (by omega)
    · cases m with
      | zero => cases hm
      | succ m => exact ih.argsFrom_succ (by omega) (by omega) as

theorem agrees_expr : Agrees bound id Parser.expr (expr bound) s :=
  .fuelLeft fun _ hfuel => (exprsAgree bound _).exprAt hfuel rfl s

end

/-! ### Declarations -/

section

variable {bound : Nat} {s : TokenInput}

/-- A written type. -/
def annotation : RunOn Annotation := do
  let t ← current
  match t.kind with
  | .kwInt =>
    advance
    return ⟨t.span, .int⟩
  | .kwBool =>
    advance
    return ⟨t.span, .bool⟩
  | .identifier =>
    advance
    return ⟨t.span, .ref t.literal⟩
  | _ =>
    report (.noType t)
    return ⟨t.span, .missing none⟩

theorem agrees_annotation : Agrees bound id Parser.annotation RunOn.annotation s := by
  rw [Parser.annotation]
  refine agrees_current.mpr ?_
  generalize hkind : s.first.kind = kind
  cases kind with
  | kwInt | kwBool | identifier => exact .advance hkind rfl fun s₁ _ => .pure rfl
  | _ => exact .fail .pure

/-- The parameters after those read so far, for so many turns. -/
def paramsFrom : Nat → List Param → RunOn (List Param)
  | 0, ps => exhausted ps
  | n + 1, ps => do
    if ← failed then return ps
    let start ← here
    let name ← identifier
    let _ ← expect .colon
    let ann ← annotation
    if ← failed then return []
    let p : Param := ⟨← spanFrom start, name, ann⟩
    if ← at? .comma then
      advance
      paramsFrom n (ps ++ [p])
    else return ps ++ [p]

theorem stays_paramsFrom {n : Nat} {ps : List Param} : Stays (paramsFrom n ps) s := by
  cases n <;> exact .guard

/-- A loop that adds parameters to the end of its list and stops at the flag, against a recursion
that puts the first one in front. -/
theorem agrees_paramsFrom {fuel n : Nat} (hn : fuel ≤ n) (ps : List Param) :
    Agrees bound (ps ++ ·) (Parser.someParams fuel) (paramsFrom n ps) s := by
  induction fuel generalizing n ps s with
  | zero => exact .outOfFuel stays_paramsFrom
  | succ fuel ih =>
    obtain ⟨n, rfl⟩ := Nat.exists_eq_succ_of_ne_zero (Nat.ne_zero_of_lt hn)
    rw [Parser.someParams]
    refine .guard ?_
    rw [agrees_here]
    refine .bind agrees_identifier fun name s₁ => .expect rfl fun s₂ => .bind agrees_annotation
      fun ann s₃ => .guard ?_
    rw [agrees_spanFrom, agrees_at?]
    split
    · next hcomma =>
      exact .advance (of_decide_eq_true hcomma) rfl fun s₄ _ =>
        .prepend (ih (Nat.le_of_succ_le_succ hn) _)
    · exact .pure rfl

/-- Parameters between parentheses. -/
def params (bound : Nat) : RunOn (List Param) := do
  let _ ← expect .lparen
  let ps ← if ← at? .rparen then pure [] else paramsFrom bound []
  let _ ← expect .rparen
  return ps

theorem agrees_params : Agrees bound id Parser.params (params bound) s := by
  rw [Parser.params]
  refine .expect rfl fun s₁ => ?_
  rw [agrees_at?]
  extract_lets go go'
  have hgo : ∀ ps s, Agrees bound id (go ps) (go' ps) s :=
    fun ps s => .expect rfl fun s₁ => .pure rfl
  split
  · exact hgo [] s₁
  · exact .fuelLeft fun _ hfuel => .bind (agrees_paramsFrom hfuel []) hgo

/-- A variable declaration. -/
def varDecl (bound : Nat) : RunOn (Option VarDecl) := do
  let start ← here
  let _ ← expect .kwVar
  let name ← identifier
  let _ ← expect .colon
  let ann ← annotation
  let _ ← expect .assign
  let value ← expr bound
  let _ ← expect .semicolon
  if ← failed then return none
  return some ⟨← spanFrom start, name, ann, value⟩

theorem agrees_varDecl : Agrees bound some Parser.varDecl (varDecl bound) s := by
  rw [Parser.varDecl]
  exact agrees_here.mpr <| .expect rfl fun s₁ => .bind agrees_identifier fun name s₂ =>
    .expect rfl fun s₃ => .bind agrees_annotation fun ann s₄ => .expect rfl fun s₅ =>
    .bind agrees_expr fun value s₆ => .expect rfl fun s₇ => .node fun _ => rfl

/-- A function or a method with declarations in it. -/
def routine (bound : Nat) (decls : RunOn (List Decl)) : RunOn (Option Routine) := do
  let start ← here
  let _ ← expect .kwFun
  let name ← identifier
  let _ ← expect .colon
  let ret ← annotation
  let ps ← params bound
  let ds ← if ← at? .kwLet then do
      advance
      let ds ← decls
      let t ← current
      if ds.isEmpty then report (.noDeclaration t)
      let _ ← expect .kwIn
      pure ds
    else pure []
  let body ← expr bound
  let _ ← expect .semicolon
  if ← failed then return none
  return some ⟨← spanFrom start, name, ret, ps, ds, body⟩

/-- A routine, once the declarations in it agree.  Whether there are any is the same for both
parsers, since as long as nothing failed they have read the same ones. -/
theorem agrees_routine {fuel : Nat} {decls : RunOn (List Decl)}
    (hdecls : ∀ s, Agrees bound id (Parser.declsFor fuel) decls s) :
    Agrees bound some (Parser.routineFor (fuel + 1)) (routine bound decls) s := by
  rw [Parser.routineFor]
  refine agrees_here.mpr <| .expect rfl fun s₁ => .bind agrees_identifier fun name s₂ =>
    .expect rfl fun s₃ => .bind agrees_annotation fun ret s₄ => .bind agrees_params fun ps s₅ => ?_
  rw [agrees_at?]
  extract_lets go go'
  have hgo : ∀ ds s, Agrees bound some (go ds) (go' ds) s := fun ds s =>
    .bind agrees_expr fun body s₁ => .expect rfl fun s₂ => .node fun _ => rfl
  split
  · next hlet =>
    refine .advance (of_decide_eq_true hlet) rfl fun s₆ _ => .bind (hdecls s₆) fun ds s₇ => ?_
    rw [agrees_current]
    -- The error for no declarations leaves what follows to be run, so that has to end as well.
    extract_lets goIn goIn'
    have hin : Agrees bound some (goIn ()) (goIn' ()) s₇ := .expect rfl (hgo ds)
    split
    · exact .fail hin.2
    · exact hin
  · exact hgo [] s₅

/-- The variables and functions after those read so far. -/
def declsFrom (bound : Nat) : Nat → List Decl → RunOn (List Decl)
  | 0, ds => exhausted ds
  | n + 1, ds => do
    if ← failed then return ds
    match (← current).kind with
    | .kwVar =>
      let v ← varDecl bound
      declsFrom bound n (ds ++ (v.map .var).toList)
    | .kwFun =>
      let r ← routine bound (declsFrom bound n [])
      declsFrom bound n (ds ++ (r.map .fn).toList)
    | _ => return ds

theorem stays_declsFrom {n : Nat} {ds : List Decl} : Stays (declsFrom bound n ds) s := by
  cases n <;> exact .guard

/-- Declarations and routines, which are nested in each other. -/
theorem agrees_decls (fuel : Nat) : ∀ {n : Nat}, fuel ≤ n →
    (∀ ds s, Agrees bound (ds ++ ·) (Parser.declsFor fuel) (declsFrom bound n ds) s) ∧
      ∀ s, Agrees bound some (Parser.routineFor fuel) (routine bound (declsFrom bound n [])) s := by
  induction fuel with
  | zero =>
    intro n hn
    have hdecls : ∀ ds s, Agrees bound (ds ++ ·) (Parser.declsFor 0) (declsFrom bound n ds) s :=
      fun ds s => .outOfFuel stays_declsFrom
    exact ⟨hdecls, fun s => .outOfFuel (agrees_routine (hdecls [])).2⟩
  | succ fuel ih =>
    intro n hn
    refine ⟨fun ds s => ?_, fun s => agrees_routine ((ih (Nat.le_of_succ_le hn)).1 [])⟩
    obtain ⟨n, rfl⟩ := Nat.exists_eq_succ_of_ne_zero (Nat.ne_zero_of_lt hn)
    obtain ⟨hdecls, hroutine⟩ := ih (Nat.le_of_succ_le_succ hn)
    rw [Parser.declsFor]
    refine .guard ?_
    rw [agrees_current]
    generalize hkind : s.first.kind = kind
    cases kind with
    | kwVar =>
      exact .bindTo agrees_varDecl (fun v s₁ => .prepend (hdecls _ s₁)) fun v s₁ => stays_declsFrom
    | kwFun =>
      exact .bindTo (hroutine s) (fun r s₁ => .prepend (hdecls _ s₁)) fun r s₁ => stays_declsFrom
    | _ => exact .pure (append_nil ds)

/-- The methods after those read so far. -/
def methodsFrom (bound : Nat) : Nat → List Method → RunOn (List Method)
  | 0, ms => exhausted ms
  | n + 1, ms => do
    if ← at? .kwFun then
      if ← failed then return ms
      match ← routine bound (declsFrom bound bound []) with
      | none => return ms
      | some r => methodsFrom bound n (ms ++ [⟨r, 0⟩])
    else return ms

theorem stays_methodsFrom {n : Nat} {ms : List Method} : Stays (methodsFrom bound n ms) s := by
  cases n with
  | zero => exact .guard
  | succ n => exact .atGuard

/-- The loop over methods looks at the token before it looks at the flag, and it is left by the
first method that lacks a part. -/
theorem agrees_methodsFrom {fuel n : Nat} (hn : fuel ≤ n) (ms : List Method) :
    Agrees bound (ms ++ ·) (Parser.methodsFor fuel) (methodsFrom bound n ms) s := by
  induction fuel generalizing n ms s with
  | zero => exact .outOfFuel stays_methodsFrom
  | succ fuel ih =>
    obtain ⟨n, rfl⟩ := Nat.exists_eq_succ_of_ne_zero (Nat.ne_zero_of_lt hn)
    have hrest := fun ms s => ih (s := s) (Nat.le_of_succ_le_succ hn) ms
    rw [Parser.methodsFor]
    refine agrees_at?.mpr ?_
    split
    · refine .guard (.fuelLeft fun _ hfuel => ?_)
      refine .bindTo ((agrees_decls _ hfuel).2 s) (fun r s₁ => .prepend (hrest _ s₁)) fun r s₁ => ?_
      cases r with
      | none => exact .pure
      | some r => exact stays_methodsFrom
    · exact .pure (append_nil ms)

/-- A class. -/
def classDecl (bound : Nat) : RunOn (Option ClassDecl) := do
  let start ← here
  let _ ← expect .kwClass
  let name ← identifier
  let super ← if ← at? .kwExtends then do
      advance
      some <$> identifier
    else pure none
  let ps ← params bound
  let _ ← expect .lbrace
  let methods ← methodsFrom bound bound []
  let _ ← expect .rbrace
  if ← failed then return none
  let fields := ps.map fun p => (⟨p.span, p.name, p.annotation, 0⟩ : Field)
  return some ⟨← spanFrom start, name, super, fields, methods, none, none⟩

/-- A class.  Its fields are made from parameters that may lack a part, but then the flag keeps the
class from being returned. -/
theorem agrees_classDecl : Agrees bound some Parser.classDecl (classDecl bound) s := by
  rw [Parser.classDecl]
  refine agrees_here.mpr <| .expect rfl fun s₁ => .bind agrees_identifier fun name s₂ => ?_
  rw [agrees_at?]
  extract_lets go go'
  have hgo : ∀ super s, Agrees bound some (go super) (go' super) s := fun super s =>
    .bind agrees_params fun ps s₁ => .expect rfl fun s₂ => .fuelLeft fun _ hfuel =>
      .bind (agrees_methodsFrom hfuel []) fun ms s₃ => .expect rfl fun s₄ => .node fun _ => rfl
  split
  · next hextends =>
    refine .advance (of_decide_eq_true hextends) rfl fun s₃ _ => ?_
    rw [bind_map_left, bind_map_left]
    exact .bind agrees_identifier fun super s₄ => hgo (some super) s₄
  · exact hgo none s₂

/-- The classes after those read so far. -/
def classesFrom (bound : Nat) : Nat → List ClassDecl → RunOn (List ClassDecl)
  | 0, cs => exhausted cs
  | n + 1, cs => do
    if ← at? .kwClass then
      if ← failed then return cs
      let c ← classDecl bound
      classesFrom bound n (cs ++ c.toList)
    else return cs

theorem stays_classesFrom {n : Nat} {cs : List ClassDecl} : Stays (classesFrom bound n cs) s := by
  cases n with
  | zero => exact .guard
  | succ n => exact .atGuard

theorem agrees_classesFrom {fuel n : Nat} (hn : fuel ≤ n) (cs : List ClassDecl) :
    Agrees bound (cs ++ ·) (Parser.classesFor fuel) (classesFrom bound n cs) s := by
  induction fuel generalizing n cs s with
  | zero => exact .outOfFuel stays_classesFrom
  | succ fuel ih =>
    obtain ⟨n, rfl⟩ := Nat.exists_eq_succ_of_ne_zero (Nat.ne_zero_of_lt hn)
    have hrest := fun cs s => ih (s := s) (Nat.le_of_succ_le_succ hn) cs
    rw [Parser.classesFor]
    refine agrees_at?.mpr ?_
    split
    · exact .guard (.bindTo agrees_classDecl (fun c s₁ => .prepend (hrest _ s₁))
        fun c s₁ => stays_classesFrom)
    · exact .pure (append_nil cs)

/-- The declarations after `let`, up to and including `in`. -/
def letPart (bound : Nat) : RunOn (List ClassDecl × List Decl) := do
  advance
  let cs ← classesFrom bound bound []
  let ds ← declsFrom bound bound []
  let t ← current
  if cs.isEmpty && ds.isEmpty then report (.noDeclaration t)
  let _ ← expect .kwIn
  return (cs, ds)

theorem agrees_letPart (hlet : s.first.kind = .kwLet) :
    Agrees bound id Parser.letPart (letPart bound) s := by
  rw [Parser.letPart]
  refine .advance hlet rfl fun s₁ _ => .fuelLeft fun _ hfuel =>
    .bind (agrees_classesFrom hfuel []) fun cs s₂ => ?_
  rw [Parser.decls, bind_assoc]
  refine .fuelLeft fun _ hfuel => .bind ((agrees_decls _ hfuel).1 [] s₂) fun ds s₃ => ?_
  rw [agrees_current]
  extract_lets go go'
  have hgo : Agrees bound id (go ()) (go' ()) s₃ := .expect rfl fun s₄ => .pure rfl
  split
  · exact .fail hgo.2
  · exact hgo

/-- A whole program, complete or not. -/
def tree (bound : Nat) : RunOn Program := do
  checkLexical
  let start ← here
  let (cs, ds) ← if ← at? .kwLet then letPart bound else pure ([], [])
  let body ← expr bound
  let _ ← expect .semicolon
  let t ← current
  if t.kind ≠ .eof then report (.afterEnd t)
  return ⟨← spanFrom start, cs, ds, body⟩

/-- A program, complete or not: what is made of it after an error is a tree of whatever was
read. -/
theorem agrees_tree : Agrees bound id Parser.program (tree bound) s := by
  rw [Parser.program]
  refine .checkLexical ?_
  rw [agrees_here, agrees_at?]
  extract_lets go go'
  have hgo : ∀ p s, Agrees bound id (go p) (go' p) s := by
    rintro ⟨cs, ds⟩ s
    refine .bind agrees_expr fun body s₁ => .expect rfl fun s₂ => ?_
    rw [agrees_current]
    extract_lets close close'
    have hclose : Agrees bound id (close ()) (close' ()) s₂ := .spanned fun _ => rfl
    split
    · exact .fail hclose.2
    · exact hclose
  split
  · next hlet => exact .bind (agrees_letPart (of_decide_eq_true hlet)) hgo
  · exact hgo ([], []) s

end

/-! ### Programs -/

/-- A whole program, or nothing if there was an error. -/
def program (bound : Nat) : RunOn (Option Program) := do
  let p ← tree bound
  if ← failed then return none
  return some p

/-- What the parser returns for a text, with the diagnostics, if it ends within a bound. -/
def parse (bound : Nat) (src : Text) : Option (Option Program × List Diagnostic) :=
  ((program bound).run ⟨⟨Token.scan src, default⟩, false, []⟩).map fun r => (r.1, r.2.diagnostics)

/-- A bound that is large enough for a text. -/
def boundFor (src : Text) : Nat := 8 * ((scan src).length + 1)

/-- What is returned and reported when a parser that stops at the first error ends like this: a
program without any diagnostic, or no program and one diagnostic. -/
def reported : Except Diagnostic Program → Option Program × List Diagnostic
  | .ok p => (some p, [])
  | .error d => (none, [d])

/-- **The parser that runs on ends, and with what the one that stops gives.**  Whatever is done
after an error, there is a program and nothing was reported, or there is none and just one
diagnostic. -/
theorem parse_eq {src : Text} {bound : Nat} (hbound : boundFor src ≤ bound) :
    parse bound src = some (reported (Program.parse src)) := by
  have hrun := (agrees_tree (s := ⟨scan src, default⟩)).1 ⟨legible_scan src, hbound⟩
  have hfuel : ∀ d, Program.parse src = .error d → d.cause ≠ .parsing .outOfFuel :=
    fun d => Program.cause_of_parse
  rw [Program.parse, Program.ofTokens] at hfuel ⊢
  rw [parse, program, StateT.run_bind]
  generalize Parser.program.run ⟨scan src, default⟩ = r at hrun hfuel ⊢
  generalize (tree bound).run ⟨⟨scan src, default⟩, false, []⟩ = r' at hrun ⊢
  cases hrun with
  | done => rfl
  | failed => rfl
  | gaveUp h => exact absurd h (hfuel _ rfl)

end RunOn

end Foolscap
