import Foolscap.Proofs.Token.Scanned
import Foolscap.Proofs.Word

/-!
# Numbers in scanned texts

A number in a scanned text is a run of decimal digits, so it has a value, and its value decides
whether it denotes a word.
-/

namespace Foolscap

open List

namespace Text

/-! ### Characters with small codes -/

theorem byteIn_iff (lo hi b : UInt8) :
    byteIn lo hi b ↔ lo.toNat ≤ b.toNat ∧ b.toNat ≤ hi.toNat := by
  simp [byteIn, UInt8.le_iff_toNat_le]

variable {a : UInt8} {n : Nat} {t : Text}

theorem two_le_of_byteIn (h : byteIn 0xC2 0xDF a) : 2 ≤ a.toNat % 32 := by
  obtain ⟨hlo, hhi⟩ := (byteIn_iff _ _ _).mp h
  have hlo : 194 ≤ a.toNat := hlo
  have hhi : a.toNat ≤ 223 := hhi
  omega

/-- The range of the second byte shuts out three bytes for a small code. -/
theorem two_le_of_secondOfThree {b : UInt8} (h : byteIn 0xE0 0xEF a) (hb : secondOfThree a b) :
    2 ≤ (a.toNat % 16) * 64 + tailBits b := by
  obtain ⟨hlo, hhi⟩ := (byteIn_iff _ _ _).mp h
  have hlo : 224 ≤ a.toNat := hlo
  have hhi : a.toNat ≤ 239 := hhi
  rw [tailBits]
  by_cases ha : a = 0xE0
  · rw [secondOfThree, if_pos ha, byteIn_iff] at hb
    have hb₁ : 160 ≤ b.toNat := hb.1
    have hb₂ : b.toNat ≤ 191 := hb.2
    omega
  · have hne : a.toNat ≠ 224 := fun heq => ha (UInt8.toNat_inj.mp heq)
    omega

/-- The range of the second byte shuts out four bytes for a small code. -/
theorem two_le_of_secondOfFour {b : UInt8} (h : byteIn 0xF0 0xF4 a) (hb : secondOfFour a b) :
    2 ≤ (a.toNat % 8) * 64 + tailBits b := by
  obtain ⟨hlo, hhi⟩ := (byteIn_iff _ _ _).mp h
  have hlo : 240 ≤ a.toNat := hlo
  have hhi : a.toNat ≤ 244 := hhi
  rw [tailBits]
  by_cases ha : a = 0xF0
  · rw [secondOfFour, if_pos ha, byteIn_iff] at hb
    have hb₁ : 144 ≤ b.toNat := hb.1
    have hb₂ : b.toNat ≤ 191 := hb.2
    omega
  · have hne : a.toNat ≠ 240 := fun heq => ha (UInt8.toNat_inj.mp heq)
    omega

/-- Only a byte of its own has a code below 128. -/
theorem sequence?_ascii {rest : Text} {code : Nat} (h : sequence? a rest = some (code, n))
    (hcode : code < 128) : n = 0 ∧ code = a.toNat := by
  unfold sequence? at h
  split at h
  · cases h
    exact ⟨rfl, rfl⟩
  · split at h
    · next ha =>
      have := two_le_of_byteIn ha
      split at h
      · split at h
        · cases h
          omega
        · cases h
      · cases h
    · split at h
      · next ha =>
        split at h
        · split at h
          · next hb =>
            have := two_le_of_secondOfThree ha (Bool.and_eq_true_iff.mp hb).1
            cases h
            omega
          · cases h
        · cases h
      · split at h
        · next ha =>
          split at h
          · split at h
            · next hb =>
              have := two_le_of_secondOfFour ha
                (Bool.and_eq_true_iff.mp (Bool.and_eq_true_iff.mp hb).1).1
              cases h
              omega
            · cases h
          · cases h
        · cases h

/-- A digit is one byte. -/
theorem bytes_of_isDigit {g : Glyph} {pending : Nat} (h : g ∈ glyphsAfter pending t)
    (hdigit : g.isDigit) : ∃ b, g.bytes = [b] ∧ isDigitByte b := by
  induction t generalizing pending with
  | nil => cases pending <;> simp [glyphsAfter] at h
  | cons a t ih =>
    cases pending with
    | succ n => exact ih h
    | zero =>
      rcases mem_cons.mp h with rfl | h
      · simp only [Glyph.isDigit, Bool.and_eq_true, decide_eq_true_eq] at hdigit
        unfold firstGlyph at hdigit ⊢
        split
        · next code n hseq =>
          rw [hseq] at hdigit
          dsimp only at hdigit
          obtain ⟨rfl, rfl⟩ := sequence?_ascii hseq (by omega)
          refine ⟨a, rfl, ?_⟩
          simpa [isDigitByte, UInt8.le_iff_toNat_le] using hdigit
        · next hseq =>
          rw [hseq] at hdigit
          simp [Glyph.replacement] at hdigit
      · exact ih h

/-! ### Values -/

theorem digitsFrom_isSome (h : ∀ b ∈ t, isDigitByte b) (n : Nat) : (digitsFrom n t).isSome := by
  induction t generalizing n with
  | nil => rfl
  | cons b t ih =>
    rw [digitsFrom, if_pos (h b mem_cons_self)]
    exact ih (forall_mem_cons.mp h).2 _

theorem toNat?_isSome (hne : t ≠ []) (h : ∀ b ∈ t, isDigitByte b) : (toNat? t).isSome := by
  cases t with
  | nil => exact absurd rfl hne
  | cons b t => exact digitsFrom_isSome h 0

/-- A numeral without a sign denotes its value. -/
theorem toInt?_of_toNat? (h : toNat? t = some n) : toInt? t = some (n : Int) := by
  unfold toInt?
  split
  · cases h
  · cases h
  · rw [h]
    rfl

/-- A numeral after a minus sign denotes the opposite of its value. -/
theorem toInt?_neg_of_toNat? (h : toNat? t = some n) : toInt? (45 :: t) = some (-(n : Int)) := by
  rw [toInt?, h]
  rfl

/-- A numeral denotes a word if its value is in range. -/
theorem toWord?_of_toInt? {n : Int} (h : toInt? t = some n) :
    toWord? t = if -2 ^ 63 ≤ n ∧ n < 2 ^ 63 then some (Int64.ofInt n) else none := by
  rw [toWord?, h]
  simp only [fitsWord_iff]

theorem toInt_of_toWord? {n : Int} {w : Word} (h : toInt? t = some n) (hw : toWord? t = some w) :
    w.toInt = n := by
  rw [toWord?_of_toInt? h] at hw
  split at hw
  · next hn =>
    cases hw
    exact Int64.toInt_ofInt_of_le (by omega) (by omega)
  · cases hw

end Text

namespace Token

/-! ### Tokens -/

/-- Tokens as a scanned text has them: nothing before the last one is a last token, and numbers have
values. -/
structure Legible (ts : List Token) : Prop where
  closed : Closed ts
  inner : ∀ t ∈ ts.dropLast, t.kind.isLast = false
  numeral : ∀ t ∈ ts, t.kind = .integer → (Text.toNat? t.literal).isSome

/-- A word is not a number. -/
theorem ofWord_ne_integer (w : Text) : TokenKind.ofWord w ≠ .integer := by
  unfold TokenKind.ofWord
  cases h : TokenKind.reserved.find? fun k => k.name == w with
  | none => nofun
  | some k =>
    intro hk
    obtain rfl : k = .integer := hk
    have hmem := mem_of_find?_eq_some h
    revert hmem
    decide

theorem single?_ne_integer (code : Nat) : single? code ≠ some .integer := by
  unfold single?
  split <;> nofun

theorem double?_ne_integer (code second : Nat) : double? code ≠ some (second, .integer) := by
  unfold double?
  split <;> nofun

variable {p : Position} {gs : List Glyph}

/-- A token that is a number is a run of digits. -/
theorem lexeme_numeral {g : Glyph}
    (hgs : ∀ h ∈ g :: gs, h.isDigit → ∃ b, h.bytes = [b] ∧ Text.isDigitByte b)
    (h : (lexeme p g gs).1.kind = .integer) : (Text.toNat? (lexeme p g gs).1.literal).isSome := by
  unfold lexeme at h ⊢
  split
  · next k hk =>
    rw [hk] at h
    obtain rfl : k = .integer := h
    exact absurd hk (single?_ne_integer _)
  · next hsingle =>
    rw [hsingle] at h
    split
    · next second k hk =>
      rw [hk] at h
      dsimp only at h
      split at h
      · obtain rfl : k = .integer := h
        exact absurd hk (double?_ne_integer _ _)
      · split at h <;> cases h
    · next hdouble =>
      rw [hdouble] at h
      dsimp only at h
      split
      · next hdigit =>
        -- The first character and those that are taken with it are digits.
        obtain ⟨b, hb, hbd⟩ := hgs g mem_cons_self hdigit
        refine Text.toNat?_isSome (by simp [hb]) fun c hc => ?_
        rw [hb, mem_append, mem_singleton] at hc
        rcases hc with rfl | hc
        · exact hbd
        · obtain ⟨g', hg', hc⟩ := mem_flatMap.mp hc
          obtain ⟨b', hb', hbd'⟩ := hgs g'
            (mem_cons_of_mem _ ((takeWhile_sublist _).subset hg'))
            (all_eq_true.mp all_takeWhile g' hg')
          rw [hb', mem_singleton] at hc
          exact hc ▸ hbd'
      · next hdigit =>
        rw [if_neg hdigit] at h
        split at h
        · exact absurd h (ofWord_ne_integer _)
        · cases h

theorem next_numeral (hgs : ∀ h ∈ gs, h.isDigit → ∃ b, h.bytes = [b] ∧ Text.isDigitByte b)
    (h : (next p gs).1.kind = .integer) : (Text.toNat? (next p gs).1.literal).isSome := by
  rcases next_cases p gs with hlast | ⟨q, g, rest, hsuffix, heq⟩
  · rw [h] at hlast
    cases hlast
  · rw [heq] at h ⊢
    exact lexeme_numeral (fun g' hg' => hgs g' (hsuffix.subset hg')) h

theorem numeral_scanFor {fuel : Nat}
    (hgs : ∀ h ∈ gs, h.isDigit → ∃ b, h.bytes = [b] ∧ Text.isDigitByte b) :
    ∀ t ∈ scanFor fuel p gs, t.kind = .integer → (Text.toNat? t.literal).isSome := by
  intro t ht
  obtain ⟨q, rest, hrest, rfl⟩ := mem_scanFor ht
  exact next_numeral fun g hg => hgs g (hrest.subset hg)

/-- The lexer goes on until it comes to the end of input or to an error, so only the last token is
one of these. -/
theorem inner_scanFor (fuel : Nat) (p : Position) (gs : List Glyph) :
    ∀ t ∈ (scanFor fuel p gs).dropLast, t.kind.isLast = false := by
  induction fuel generalizing p gs with
  | zero => nofun
  | succ fuel ih =>
    rw [scanFor_succ]
    split
    · nofun
    · next hlast =>
      intro t ht
      cases hrest : scanFor fuel (next p gs).1.stop (next p gs).2 with
      | nil =>
        rw [hrest] at ht
        cases ht
      | cons u rest =>
        rw [hrest, dropLast_cons_cons] at ht
        rcases mem_cons.mp ht with rfl | ht
        · exact Bool.eq_false_iff.mpr hlast
        · exact ih _ _ t (hrest ▸ ht)

/-- A scanned text ends where its first last token is, and its numbers have values. -/
theorem legible_scan (src : Text) : Legible (scan src) :=
  ⟨closed_scan src, inner_scanFor _ _ _, numeral_scanFor fun _ hg => Text.bytes_of_isDigit hg⟩

end Token

end Foolscap
