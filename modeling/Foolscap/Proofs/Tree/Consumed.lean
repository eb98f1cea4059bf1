import Foolscap.Proofs.Token.Numerals
import Foolscap.Proofs.Tree.Spread
import Foolscap.Tree.Parser

/-!
# What a reader consumes

A reader of the parser consumes tokens from the front of its input, or it fails.  What is stated of
a reader is stated of the tokens that it consumes and of what it returns; a reader that fails does
so at one of its tokens and not for lack of fuel.
-/

namespace Foolscap

open Grammar Token List

/-- The token in front. -/
abbrev TokenInput.first (s : TokenInput) : Token := s.tokens.headD default

namespace Parser

variable {α β : Type}

/-- A syntax error, other than that the fuel ran out. -/
def IsMistake (d : Diagnostic) : Prop := ∃ e, d.cause = .parsing e ∧ e ≠ .outOfFuel

/-- A diagnostic is at one of some tokens. -/
def IsAt (ts : List Token) (d : Diagnostic) : Prop := ∃ t ∈ ts, d.pos = t.pos

/-- Some tokens were consumed, and other ones are left. -/
structure Consumed (done : List Token) (s : TokenInput) : Prop where
  legible : Legible s.tokens
  lastStop : s.lastStop = (done.getLast?.map Token.stop).getD default

variable {ts : List Token}

/-- The last token that was consumed ends the span of the last tokens. -/
theorem Consumed.stop_eq {done : List Token} {s : TokenInput} (h : Consumed (done ++ ts) s)
    (hne : ts ≠ []) : s.lastStop = (spanOf ts).stop := by
  rw [h.lastStop, List.getLast?_append, spanOf, getLastD_eq_getLast?,
    List.getLast?_eq_some_getLast hne]
  rfl

/-- The span from the first to the last of the last tokens that were consumed. -/
theorem Consumed.span_eq {done : List Token} {s : TokenInput} (h : Consumed (done ++ ts) s)
    (hne : ts ≠ [] := by simp) : ⟨(ts.headD default).pos, s.lastStop⟩ = spanOf ts := by
  rw [h.stop_eq hne]
  rfl

/-- After some tokens a reader consumes tokens that are, with what it returns, as stated, or it
fails with a syntax error at one of the tokens that are left, but not for lack of fuel. -/
def Consumes (x : Parser α) (done : List Token) (s : TokenInput) (Q : List Token → α → Prop) :
    Prop :=
  match x.run s with
  | .ok (a, s') => ∃ ts, s.tokens = ts ++ s'.tokens ∧ Consumed (done ++ ts) s' ∧ Q ts a
  | .error d => IsMistake d ∧ IsAt s.tokens d

/-! ### Tokens that are left -/

theorem Legible.head_mem (h : Legible ts) : ts.headD default ∈ ts := by
  obtain ⟨front, t, rfl, -⟩ := h.closed.last
  cases front <;> simp

theorem Legible.length_pos (h : Legible ts) : 0 < ts.length := by
  obtain ⟨front, t, rfl, -⟩ := h.closed.last
  simp

theorem Legible.tail {t u : Token} {rest : List Token} (h : Legible (t :: u :: rest)) :
    Legible (u :: rest) := by
  obtain ⟨⟨⟨front, last, hts, hlast⟩, hnamed⟩, hinner, hnumeral⟩ := h
  refine ⟨⟨?_, (forall_mem_cons.mp hnamed).2⟩,
    (forall_mem_cons.mp hinner).2,
    (forall_mem_cons.mp hnumeral).2⟩
  cases front with
  | nil => simp at hts
  | cons _ front => exact ⟨front, last, (List.cons.inj hts).2, hlast⟩

/-- Before a token that is not the last one there is another one. -/
theorem Legible.exists_cons (h : Legible ts) (hk : (ts.headD default).kind.isLast = false) :
    ∃ t u rest, ts = t :: u :: rest ∧ Legible (u :: rest) := by
  obtain ⟨front, last, hts, hlast⟩ := h.closed.last
  match ts with
  | [] => simp at hts
  | [t] =>
    obtain ⟨rfl, rfl⟩ : front = [] ∧ t = last := by cases front <;> simp_all
    rw [headD_cons, hlast] at hk
    cases hk
  | t :: u :: rest => exact ⟨t, u, rest, rfl, Legible.tail h⟩

/-- Before the end of input there is nothing else left. -/
theorem Legible.eq_singleton (h : Legible ts) (hk : (ts.headD default).kind = .eof) :
    ∃ t, ts = [t] ∧ t.kind = .eof := by
  obtain ⟨front, last, hts, -⟩ := h.closed.last
  cases front with
  | nil => exact ⟨last, hts, by rwa [hts] at hk⟩
  | cons t front =>
    have hinner := h.inner t (by rw [hts, dropLast_concat]; exact mem_cons_self)
    rw [hts] at hk
    obtain hk : t.kind = .eof := hk
    rw [hk] at hinner
    cases hinner

/-! ### Readers in sequence -/

namespace Consumes

variable {x : Parser α} {f : α → Parser β} {done : List Token} {s : TokenInput}
  {Q R : List Token → α → Prop} {T : List Token → β → Prop}

theorem pure {a : α} (hs : Consumed done s) (h : Q [] a) : Consumes (Pure.pure a) done s Q :=
  ⟨[], rfl, by rwa [append_nil], h⟩

/-- A reader may fail at the current token. -/
theorem fail {e : SyntaxError} (hs : Consumed done s) (h : e ≠ .outOfFuel) :
    Consumes (failAt s.first.pos e : Parser α) done s Q :=
  ⟨⟨e, rfl, h⟩, _, Legible.head_mem hs.legible, rfl⟩

theorem mono (h : Consumes x done s Q) (hQ : ∀ ts a, Q ts a → R ts a) : Consumes x done s R := by
  unfold Consumes at h ⊢
  cases hx : x.run s with
  | error d =>
    rw [hx] at h
    exact h
  | ok r =>
    rw [hx] at h
    obtain ⟨ts, hts, hs', ha⟩ := h
    exact ⟨ts, hts, hs', hQ ts _ ha⟩

/-- What two readers consume, one after the other. -/
theorem bind_tokens (hx : Consumes x done s Q)
    (hf : ∀ ts a s', Consumed (done ++ ts) s' → s.tokens = ts ++ s'.tokens → Q ts a →
      Consumes (f a) (done ++ ts) s' fun us b => T (ts ++ us) b) : Consumes (x >>= f) done s T := by
  unfold Consumes at hx ⊢
  rw [StateT.run_bind]
  cases hrun : x.run s with
  | error d =>
    rw [hrun] at hx
    exact hx
  | ok r =>
    obtain ⟨a, s₁⟩ := r
    rw [hrun] at hx
    obtain ⟨ts, hts, hs₁, ha⟩ := hx
    have hrest := hf ts a s₁ hs₁ hts ha
    unfold Consumes at hrest
    show match (f a).run s₁ with
      | .ok (b, s') => ∃ us, s.tokens = us ++ s'.tokens ∧ Consumed (done ++ us) s' ∧ T us b
      | .error d => IsMistake d ∧ IsAt s.tokens d
    cases hrun' : (f a).run s₁ with
    | error d =>
      rw [hrun'] at hrest
      obtain ⟨hmistake, t, ht, hpos⟩ := hrest
      exact ⟨hmistake, t, by rw [hts]; exact mem_append_right _ ht, hpos⟩
    | ok r =>
      obtain ⟨b, s'⟩ := r
      rw [hrun'] at hrest
      obtain ⟨us, hus, hs', hb⟩ := hrest
      exact ⟨ts ++ us, by rw [hts, hus, append_assoc], by rwa [← append_assoc], hb⟩

theorem bind (hx : Consumes x done s Q)
    (hf : ∀ ts a s', Consumed (done ++ ts) s' →
      ts.length + s'.tokens.length = s.tokens.length → Q ts a →
      Consumes (f a) (done ++ ts) s' fun us b => T (ts ++ us) b) : Consumes (x >>= f) done s T :=
  hx.bind_tokens fun ts a s' hs' hts => hf ts a s' hs' (by rw [hts, length_append])

end Consumes

/-! ### Readers that consume nothing -/

section

variable {done : List Token} {s : TokenInput} {T : List Token → β → Prop}

theorem consumes_current {f : Token → Parser β} :
    Consumes (current >>= f) done s T ↔ Consumes (f s.first) done s T := Iff.rfl

theorem consumes_here {f : Position → Parser β} :
    Consumes (here >>= f) done s T ↔ Consumes (f s.first.pos) done s T := Iff.rfl

variable {k : TokenKind}

theorem consumes_at? {f : Bool → Parser β} :
    Consumes (at? k >>= f) done s T ↔
      Consumes (f (decide (s.first.kind = k))) done s T := Iff.rfl

theorem consumes_spanFrom {start : Position} {f : Span → Parser β} :
    Consumes (spanFrom start >>= f) done s T ↔ Consumes (f ⟨start, s.lastStop⟩) done s T := Iff.rfl

theorem consumes_following {t u : Token} {rest : List Token} {f : Token → Parser β}
    (hts : s.tokens = t :: u :: rest) :
    Consumes (following >>= f) done s T ↔ Consumes (f u) done s T := by
  obtain ⟨tokens, stop⟩ := s
  obtain rfl : tokens = t :: u :: rest := hts
  rfl

theorem consumes_pure {a : α} {f : α → Parser β} :
    Consumes (Pure.pure a >>= f) done s T ↔ Consumes (f a) done s T := Iff.rfl

theorem consumes_fuelLeft {f : Nat → Parser β} :
    Consumes (fuelLeft >>= f) done s T ↔ Consumes (f (8 * (s.tokens.length + 1))) done s T :=
  Iff.rfl

/-! ### Readers of one token -/

/-- Advancing stops if the next token is a lexical error. -/
theorem advance_run_cons (t u : Token) (rest : List Token) (stop : Position) :
    advance.run ⟨t :: u :: rest, stop⟩ =
      if u.kind = .error then .error ⟨u.pos, .parsing (.lexical u.literal)⟩
      else .ok ((), ⟨u :: rest, t.stop⟩) := by
  show (if u.kind = .error then failAt u.pos (.lexical u.literal) else pure () : Parser Unit).run
    ⟨u :: rest, t.stop⟩ = _
  split <;> rfl

/-- Advancing consumes the current token, unless it is the last one. -/
theorem advance_consumes (hs : Consumed done s) (hk : s.first.kind.isLast = false) :
    Consumes advance done s fun ts _ => ts = [s.first] := by
  obtain ⟨t, u, rest, hts, hrest⟩ := Legible.exists_cons hs.legible hk
  obtain ⟨tokens, lastStop⟩ := s
  obtain rfl : tokens = t :: u :: rest := hts
  unfold Consumes
  rw [advance_run_cons]
  by_cases hu : u.kind = .error
  · rw [if_pos hu]
    exact ⟨⟨_, rfl, nofun⟩, u, by simp, rfl⟩
  · rw [if_neg hu]
    refine ⟨[t], rfl, ⟨hrest, ?_⟩, rfl⟩
    rw [List.getLast?_concat]
    rfl

theorem expect_consumes (k : TokenKind) (hs : Consumed done s) (hk : k.isLast = false) :
    Consumes (expect k) done s fun ts _ =>
      ts = [s.first] ∧ s.first.kind = k := by
  rw [expect, consumes_current]
  split
  · next hkind =>
    refine (advance_consumes hs (hkind ▸ hk)).mono ?_
    rintro ts - rfl
    exact ⟨rfl, hkind⟩
  · exact .fail hs nofun

theorem identifier_consumes (hs : Consumed done s) : Consumes identifier done s fun ts name =>
    ts = [s.first] ∧ Name name ts := by
  rw [identifier, consumes_current]
  refine .bind (expect_consumes _ hs rfl) ?_
  rintro ts - s' hs' - ⟨rfl, hkind⟩
  exact .pure hs' ⟨rfl, _, rfl, hkind, rfl⟩

/-- A token of a kind is expected, and what follows consumes the rest. -/
theorem Consumes.expect {f : Unit → Parser β} (hs : Consumed done s) (hk : k.isLast = false)
    (hf : ∀ o s', Consumed (done ++ o) s' →
      s'.tokens.length + 1 = s.tokens.length → Mark k o →
      Consumes (f ()) (done ++ o) s' fun us b => T (o ++ us) b) :
    Consumes (Parser.expect k >>= f) done s T := by
  refine .bind (expect_consumes k hs hk) ?_
  rintro o - s' hs' hlen ⟨rfl, hkind⟩
  exact hf _ s' hs' (by rw [← hlen, length_singleton, Nat.add_comm]) ⟨_, rfl, hkind⟩

/-- The current token is known to be of a kind, and what follows consumes the rest. -/
theorem Consumes.advance {f : Unit → Parser β} (hs : Consumed done s)
    (hkind : s.first.kind = k) (hk : k.isLast = false)
    (hf : ∀ s', Consumed (done ++ [s.first]) s' →
      s'.tokens.length + 1 = s.tokens.length → Mark k [s.first] →
      Consumes (f ()) (done ++ [s.first]) s'
        fun us b => T ([s.first] ++ us) b) : Consumes (Parser.advance >>= f) done s T := by
  refine .bind (advance_consumes hs (hkind ▸ hk)) ?_
  rintro ts - s' hs' hlen rfl
  exact hf s' hs' (by rw [← hlen, length_singleton, Nat.add_comm]) ⟨_, rfl, hkind⟩

/-- An identifier is expected, and what follows consumes the rest. -/
theorem Consumes.identifier {f : Text → Parser β} (hs : Consumed done s)
    (hf : ∀ i name s', Consumed (done ++ i) s' → s'.tokens.length + 1 = s.tokens.length →
      Name name i → Consumes (f name) (done ++ i) s' fun us b => T (i ++ us) b) :
    Consumes (Parser.identifier >>= f) done s T := by
  refine .bind (identifier_consumes hs) ?_
  rintro i name s' hs' hlen ⟨-, hi⟩
  exact hf i name s' hs' (by rw [← hlen, hi.length, Nat.add_comm]) hi

end

end Parser

end Foolscap
