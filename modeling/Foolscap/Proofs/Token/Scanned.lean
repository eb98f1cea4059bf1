import Foolscap.Token.Lexer

/-!
# Scanned texts

What a text becomes when it is cut into tokens: at least one token, the last one the end of input or
an error, and no more tokens before the last one than the text has bytes.
-/

namespace Foolscap

open List

/-! ### Characters -/

namespace Text

theorem bytes_ne_nil_of_mem_glyphsAfter {t : Text} {g : Glyph} {pending : Nat}
    (h : g ∈ glyphsAfter pending t) : g.bytes ≠ [] := by
  induction t generalizing pending with
  | nil => cases pending <;> simp [glyphsAfter] at h
  | cons a t ih =>
    cases pending with
    | succ n => exact ih h
    | zero =>
      rcases mem_cons.mp h with rfl | h
      · unfold firstGlyph
        split <;> simp
      · exact ih h

theorem length_glyphsAfter_le (pending : Nat) (t : Text) :
    (glyphsAfter pending t).length ≤ t.length := by
  induction t generalizing pending with
  | nil => cases pending <;> simp [glyphsAfter]
  | cons a t ih =>
    cases pending with
    | succ n => exact Nat.le_succ_of_le (ih n)
    | zero => exact Nat.succ_le_succ (ih _)

end Text

namespace Token

/-- Tokens as a scanned text has them: the last one is the end of input or an error, and no
identifier is empty. -/
structure Closed (ts : List Token) : Prop where
  last : ∃ front t, ts = front ++ [t] ∧ t.kind.isLast
  named : ∀ t ∈ ts, t.kind = .identifier → t.literal ≠ []

/-! ### One token -/

variable {p : Position} {gs : List Glyph} {fuel : Nat}

/-- What is left behind blanks and comments is an end of the text. -/
theorem skip_found {gap : Gap} {q : Position} {rest : List Glyph}
    (h : skip gap p gs = .found q rest) : rest <:+ gs := by
  fun_induction skip gap p gs with
  | case1 => cases h
  | case2 => cases h; exact suffix_rfl
  | case3 => cases h; exact nil_suffix
  | case4 => cases h; exact suffix_rfl
  | case5 p g h' rest' _ ih => exact (ih h).trans (suffix_cons _ _)
  | case6 p g h' rest' _ _ ih | case7 p g h' rest' _ _ _ ih => exact (ih h).trans ⟨[g, h'], rfl⟩
  | case8 => cases h; exact suffix_rfl
  | case9 p g rest' _ ih => exact (ih h).trans (suffix_cons _ _)
  | case10 => cases h; exact suffix_rfl
  | case11 p g rest' _ _ ih => exact (ih h).trans (suffix_cons _ _)
  | case12 => cases h
  | case13 => cases h
  | case14 p g h' rest' _ ih => exact (ih h).trans ⟨[g, h'], rfl⟩
  | case15 => cases h
  | case16 p g h' rest' _ _ ih => exact (ih h).trans (suffix_cons _ _)

/-- A token that is no error has a literal. -/
theorem lexeme_literal {g : Glyph} (hg : g.bytes ≠ []) (h : (lexeme p g gs).1.kind ≠ .error) :
    (lexeme p g gs).1.literal ≠ [] := by
  unfold lexeme at h ⊢
  split
  · exact hg
  · split
    · split
      · simp [hg]
      · split
        · exact hg
        · simp_all
    · split
      · simp [hg]
      · split
        · simp [hg]
        · simp_all

/-- What is left behind a lexeme is an end of the text, so the lexer comes to its end. -/
theorem lexeme_rest (p : Position) (g : Glyph) (gs : List Glyph) : (lexeme p g gs).2 <:+ gs := by
  unfold lexeme
  split
  · exact suffix_rfl
  · split
    · split
      · exact drop_suffix _ _
      · split <;> exact suffix_rfl
    · split
      · exact dropWhile_suffix _
      · split
        · exact dropWhile_suffix _
        · exact suffix_rfl

/-- The first token of some input: the last one of all, or what a character starts. -/
theorem next_cases (p : Position) (gs : List Glyph) :
    (next p gs).1.kind.isLast ∨
      ∃ q g rest, g :: rest <:+ gs ∧ next p gs = lexeme q g rest := by
  unfold next
  cases hs : skipBlanks p gs with
  | unterminated q => exact .inl rfl
  | found q rest =>
    cases rest with
    | nil => exact .inl rfl
    | cons g rest =>
      dsimp only
      split
      · exact .inl rfl
      · exact .inr ⟨q, g, rest, skip_found hs, rfl⟩

/-- A token that is not the last one takes at least one character. -/
theorem next_rest (h : (next p gs).1.kind.isLast = false) :
    (next p gs).2 <:+ gs ∧ (next p gs).2.length < gs.length := by
  rcases next_cases p gs with hlast | ⟨q, g, rest, hsuffix, heq⟩
  · rw [h] at hlast
    cases hlast
  · have hrest := lexeme_rest q g rest
    have hlen := hsuffix.length_le
    have hlen' := hrest.length_le
    simp only [length_cons] at hlen
    rw [heq]
    exact ⟨hrest.trans ((suffix_cons g rest).trans hsuffix), by omega⟩

theorem next_named (hgs : ∀ g ∈ gs, g.bytes ≠ []) (h : (next p gs).1.kind = .identifier) :
    (next p gs).1.literal ≠ [] := by
  rcases next_cases p gs with hlast | ⟨q, g, rest, hsuffix, heq⟩
  · rw [h] at hlast
    cases hlast
  · rw [heq] at h ⊢
    exact lexeme_literal (hgs g (hsuffix.subset mem_cons_self)) (by rw [h]; nofun)

/-! ### All tokens -/

theorem scanFor_succ (fuel : Nat) (p : Position) (gs : List Glyph) :
    scanFor (fuel + 1) p gs = if (next p gs).1.kind.isLast then [(next p gs).1]
      else (next p gs).1 :: scanFor fuel (next p gs).1.stop (next p gs).2 := rfl

/-- Every token is the first one of some input that is left. -/
theorem mem_scanFor {t : Token} (h : t ∈ scanFor fuel p gs) :
    ∃ q rest, rest <:+ gs ∧ t = (next q rest).1 := by
  induction fuel generalizing p gs with
  | zero => cases h
  | succ fuel ih =>
    rw [scanFor_succ] at h
    split at h
    · exact ⟨p, gs, suffix_rfl, mem_singleton.mp h⟩
    · next hlast =>
      rcases mem_cons.mp h with rfl | h
      · exact ⟨p, gs, suffix_rfl, rfl⟩
      · obtain ⟨q, rest, hrest, ht⟩ := ih h
        obtain ⟨hsuffix, -⟩ := next_rest (Bool.eq_false_iff.mpr hlast)
        exact ⟨q, rest, hrest.trans hsuffix, ht⟩

/-- With enough fuel the last token is the end of input or an error. -/
theorem last_scanFor (hfuel : gs.length < fuel) :
    ∃ front t, scanFor fuel p gs = front ++ [t] ∧ t.kind.isLast := by
  induction fuel generalizing p gs with
  | zero => omega
  | succ fuel ih =>
    rw [scanFor_succ]
    split
    · next hlast => exact ⟨[], _, rfl, hlast⟩
    · next hlast =>
      obtain ⟨-, hlt⟩ := next_rest (Bool.eq_false_iff.mpr hlast)
      obtain ⟨front, t, hts, ht⟩ := ih (p := (next p gs).1.stop) (Nat.lt_of_lt_of_le hlt (by omega))
      exact ⟨(next p gs).1 :: front, t, by rw [hts, cons_append], ht⟩

theorem named_scanFor (hgs : ∀ g ∈ gs, g.bytes ≠ []) :
    ∀ t ∈ scanFor fuel p gs, t.kind = .identifier → t.literal ≠ [] := by
  intro t ht
  obtain ⟨q, rest, hrest, rfl⟩ := mem_scanFor ht
  exact next_named fun g hg => hgs g (hrest.subset hg)

theorem length_scanFor_le (fuel : Nat) (p : Position) (gs : List Glyph) :
    (scanFor fuel p gs).length ≤ fuel := by
  induction fuel generalizing p gs with
  | zero => exact Nat.le_refl 0
  | succ fuel ih =>
    rw [scanFor_succ]
    split
    · simp
    · exact Nat.succ_le_succ (ih _ _)

/-- A scanned text ends with the end of input or an error. -/
theorem closed_scan (src : Text) : Closed (scan src) :=
  ⟨last_scanFor (Nat.lt_succ_self _),
    named_scanFor fun _ hg => Text.bytes_ne_nil_of_mem_glyphsAfter hg⟩

/-- Every token but the last one takes at least one byte. -/
theorem length_scan_le (src : Text) : (scan src).length ≤ src.length + 1 :=
  Nat.le_trans (length_scanFor_le _ _ _) (Nat.succ_le_succ (Text.length_glyphsAfter_le 0 src))

end Token

end Foolscap
