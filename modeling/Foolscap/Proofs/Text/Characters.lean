import Foolscap.Proofs.Token.Numerals

/-!
# Characters of a text

The characters that a text is read as are of two kinds.  A byte below 128 is a character of its own,
with itself as its code.  All other characters consist of bytes from 128 on and have codes from 128
on, whether they are well formed or not.  So a character with a small code can be found by looking
for its byte.
-/

namespace Foolscap

namespace Glyph

/-- A character as a text has it: a byte below 128, or bytes of which none is. -/
inductive Genuine : Glyph → Prop where
  | ascii {b : UInt8} (hb : b < 128) : Genuine ⟨b.toNat, [b]⟩
  | wide {code : Nat} {bytes : Text} (hcode : 128 ≤ code) (hne : bytes ≠ [])
      (hbytes : ∀ b ∈ bytes, 128 ≤ b) : Genuine ⟨code, bytes⟩

namespace Genuine

variable {g : Glyph}

theorem bytes_ne_nil (h : g.Genuine) : g.bytes ≠ [] := by
  cases h with
  | ascii hb => nofun
  | wide hcode hne hbytes => exact hne

variable {b : UInt8}

/-- A small byte is found in just the characters with its code. -/
theorem mem_bytes_iff (h : g.Genuine) (hb : b < 128) : b ∈ g.bytes ↔ g.code = b.toNat := by
  cases h with
  | ascii hc => rw [List.mem_singleton, UInt8.toNat_inj, eq_comm]
  | wide hcode hne hbytes =>
    rw [UInt8.lt_iff_toNat_lt] at hb
    constructor
    · intro hmem
      have hle := hbytes b hmem
      rw [UInt8.le_iff_toNat_le] at hle
      omega
    · intro heq
      have hb : b.toNat < 128 := hb
      dsimp only at heq
      omega

/-- A character with the code of a small byte is that byte. -/
theorem bytes_eq (h : g.Genuine) (hb : b < 128) (hcode : g.code = b.toNat) : g.bytes = [b] := by
  have hmem := (h.mem_bytes_iff hb).mpr hcode
  cases h with
  | ascii hc => rw [List.mem_singleton.mp hmem]
  | wide hcode hne hbytes =>
    have hle := hbytes b hmem
    exact absurd hb (UInt8.not_lt.mpr hle)

/-- A text that starts with a character and a small byte starts with a character with its code. -/
theorem code_of_head? (h : g.Genuine) {t : Text} (hb : b < 128)
    (hhead : (g.bytes ++ t).head? = some b) : g.code = b.toNat := by
  rw [List.head?_append, List.head?_eq_some_head h.bytes_ne_nil, Option.some_or] at hhead
  rw [← h.mem_bytes_iff hb, ← Option.some.inj hhead]
  exact List.head_mem _

end Genuine

end Glyph

namespace Text

variable {b a : UInt8}

/-- The last byte of some characters is one of the last character. -/
theorem exists_last_glyph {gs : List Glyph} (hgs : ∀ g ∈ gs, g.Genuine)
    (h : (ofGlyphs gs).getLast? = some b) : ∃ g, gs.getLast? = some g ∧ b ∈ g.bytes := by
  obtain rfl | ⟨front, g, rfl⟩ := gs.eq_nil_or_concat
  · cases h
  rw [List.concat_eq_append] at h hgs ⊢
  have hne := (hgs g (by simp)).bytes_ne_nil
  have hbytes : ofGlyphs (front ++ [g]) = ofGlyphs front ++ g.bytes := by simp [ofGlyphs]
  rw [hbytes, List.getLast?_append, List.getLast?_eq_some_getLast hne, Option.some_or] at h
  exact ⟨g, List.getLast?_concat, Option.some.inj h ▸ List.getLast_mem hne⟩

theorem le_of_byteIn {lo hi : UInt8} (hlo : 128 ≤ lo) (h : byteIn lo hi b) : 128 ≤ b := by
  rw [UInt8.le_iff_toNat_le] at hlo ⊢
  exact Nat.le_trans hlo ((byteIn_iff _ _ _).mp h).1

theorem le_of_isTail (h : isTail b) : 128 ≤ b := le_of_byteIn (by decide) h

theorem le_of_secondOfThree (h : secondOfThree a b) : 128 ≤ b := by
  unfold secondOfThree at h
  split at h
  · exact le_of_byteIn (by decide) h
  split at h
  · exact le_of_byteIn (by decide) h
  · exact le_of_isTail h

theorem le_of_secondOfFour (h : secondOfFour a b) : 128 ≤ b := by
  unfold secondOfFour at h
  split at h
  · exact le_of_byteIn (by decide) h
  split at h
  · exact le_of_byteIn (by decide) h
  · exact le_of_isTail h

/-- A sequence with a code from 128 on consists of bytes from 128 on. -/
theorem sequence?_wide {rest : Text} {code n : Nat} (h : sequence? a rest = some (code, n))
    (hcode : 128 ≤ code) : ∀ b ∈ a :: rest.take n, 128 ≤ b := by
  unfold sequence? at h
  split at h
  -- One byte would have its own code.
  · next ha =>
    cases h
    have ha : a.toNat < 128 := UInt8.lt_iff_toNat_lt.mp ha
    omega
  split at h
  · next ha =>
    split at h
    · split at h
      · next hb =>
        cases h
        simpa using ⟨le_of_byteIn (by decide) ha, le_of_isTail hb⟩
      · cases h
    · cases h
  split at h
  · next ha =>
    split at h
    · split at h
      · next hb =>
        cases h
        obtain ⟨hb, hc⟩ := Bool.and_eq_true_iff.mp hb
        simpa using ⟨le_of_byteIn (by decide) ha, le_of_secondOfThree hb, le_of_isTail hc⟩
      · cases h
    · cases h
  split at h
  · next ha =>
    split at h
    · split at h
      · next hb =>
        cases h
        obtain ⟨hb, hd⟩ := Bool.and_eq_true_iff.mp hb
        obtain ⟨hb, hc⟩ := Bool.and_eq_true_iff.mp hb
        simpa using ⟨le_of_byteIn (by decide) ha, le_of_secondOfFour hb, le_of_isTail hc,
          le_of_isTail hd⟩
      · cases h
    · cases h
  · cases h

/-- The first character of a text is a byte below 128 that stands for itself, or has only bytes
above. -/
theorem genuine_firstGlyph (a : UInt8) (rest : Text) : (firstGlyph a rest).Genuine := by
  unfold firstGlyph
  cases hseq : sequence? a rest with
  | none =>
    refine .wide (by decide) (by nofun) ?_
    intro b hb
    rw [List.mem_singleton.mp hb]
    refine UInt8.not_lt.mp fun hlt => ?_
    unfold sequence? at hseq
    rw [if_pos hlt] at hseq
    cases hseq
  | some s =>
    obtain ⟨code, n⟩ := s
    by_cases hcode : code < 128
    · obtain ⟨rfl, rfl⟩ := sequence?_ascii hseq hcode
      exact .ascii (UInt8.lt_iff_toNat_lt.mpr hcode)
    · exact .wide (Nat.le_of_not_lt hcode) (by nofun) (sequence?_wide hseq (Nat.le_of_not_lt hcode))

/-- The characters of a text are genuine. -/
theorem genuine_of_mem_glyphsAfter {t : Text} {g : Glyph} {pending : Nat}
    (h : g ∈ glyphsAfter pending t) : g.Genuine := by
  induction t generalizing pending with
  | nil => cases pending <;> cases h
  | cons a t ih =>
    cases pending with
    | succ n => exact ih h
    | zero =>
      rcases List.mem_cons.mp h with rfl | h
      · exact genuine_firstGlyph a t
      · exact ih h

theorem genuine_of_mem_glyphs {t : Text} {g : Glyph} (h : g ∈ t.glyphs) : g.Genuine :=
  genuine_of_mem_glyphsAfter h

end Text

end Foolscap
