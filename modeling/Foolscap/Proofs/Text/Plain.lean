import Foolscap.Text.Blank
import Foolscap.Text.Number

/-!
# Plain text

Texts of visible ASCII characters, which is what assembly is written in: reading them as characters,
trimming them and taking them apart changes nothing, and numerals read back as the numbers they
were written for.
-/

namespace Foolscap

open List

namespace Text

/-- Whether a byte is a visible ASCII character. -/
def isVisible (b : UInt8) : Bool := 33 ≤ b && b ≤ 126

/-- A text of visible ASCII characters. -/
def IsPlain (t : Text) : Prop := ∀ b ∈ t, isVisible b

instance (t : Text) : Decidable t.IsPlain := List.decidableBAll (fun b => isVisible b) t

variable {s t : Text} {b : UInt8} {n : Nat}

theorem IsPlain.append (hs : s.IsPlain) (ht : t.IsPlain) : (s ++ t).IsPlain := by
  intro b hb
  exact (mem_append.mp hb).elim (hs b) (ht b)

/-! ### Characters -/

theorem glyphs_cons_of_lt (hb : b < 128) (t : Text) :
    glyphs (b :: t) = ⟨b.toNat, [b]⟩ :: glyphs t := by
  have hg : firstGlyph b t = ⟨b.toNat, [b]⟩ := by simp [firstGlyph, sequence?, hb]
  simp [glyphs, glyphsAfter, hg]

theorem glyphs_eq_map (h : ∀ b ∈ t, b < 128) : t.glyphs = t.map fun b => ⟨b.toNat, [b]⟩ := by
  induction t with
  | nil => rfl
  | cons b t ih =>
    rw [glyphs_cons_of_lt (h b (by simp)), ih fun c hc => h c (by simp [hc]), map_cons]

theorem isVisible_bounds (h : isVisible b) : 33 ≤ b.toNat ∧ b.toNat ≤ 126 := by
  rw [isVisible, Bool.and_eq_true, decide_eq_true_eq, decide_eq_true_eq] at h
  exact ⟨UInt8.le_iff_toNat_le.mp h.1, UInt8.le_iff_toNat_le.mp h.2⟩

theorem isVisible_lt (h : isVisible b) : b < 128 := by
  have := isVisible_bounds h
  rw [UInt8.lt_iff_toNat_lt]
  show b.toNat < 128
  omega

/-- A visible character is not white space. -/
theorem isBlank_of_isVisible (h : isVisible b) : Glyph.isBlank ⟨b.toNat, [b]⟩ = false := by
  have := isVisible_bounds h
  simp only [Glyph.isBlank, Blank.isBlank, Bool.or_eq_false_iff, Bool.and_eq_false_iff,
    decide_eq_false_iff_not, beq_eq_false_iff_ne]
  omega

/-! ### Trimming and words -/

theorem dropWhile_eq_self {α : Type} {p : α → Bool} {l : List α}
    (h : ∀ a, l.head? = some a → p a = false) : l.dropWhile p = l := by
  cases l with
  | nil => rfl
  | cons a l => simp [h a rfl]

/-- A text that begins and ends with visible characters has nothing to trim. -/
theorem trim_eq_self (ht : ∀ b ∈ t, b < 128) (hfirst : ∀ b, t.head? = some b → isVisible b)
    (hlast : ∀ b, t.getLast? = some b → isVisible b) : t.trim = t := by
  have hleft : t.glyphs.dropWhile Glyph.isBlank = t.glyphs := by
    refine dropWhile_eq_self fun g hg => ?_
    rw [glyphs_eq_map ht, List.head?_map, Option.map_eq_some_iff] at hg
    obtain ⟨b, hb, rfl⟩ := hg
    exact isBlank_of_isVisible (hfirst b hb)
  have hright : t.glyphs.reverse.dropWhile Glyph.isBlank = t.glyphs.reverse := by
    refine dropWhile_eq_self fun g hg => ?_
    rw [glyphs_eq_map ht, List.head?_reverse, List.getLast?_map, Option.map_eq_some_iff] at hg
    obtain ⟨b, hb, rfl⟩ := hg
    exact isBlank_of_isVisible (hlast b hb)
  rw [trim, hleft, hright, reverse_reverse, bytes_glyphs]

theorem trim_plain (ht : t.IsPlain) : t.trim = t :=
  trim_eq_self (fun b hb => isVisible_lt (ht b hb)) (fun b hb => ht b (mem_of_head? hb))
    (fun b hb => ht b (mem_of_getLast? hb))

theorem lt_of_mem_pair (hs : s.IsPlain) (ht : t.IsPlain) : ∀ b ∈ s ++ 32 :: t, b < 128 := by
  intro b hb
  rw [mem_append, mem_cons] at hb
  obtain hb | rfl | hb := hb
  · exact isVisible_lt (hs b hb)
  · decide
  · exact isVisible_lt (ht b hb)

theorem getLast?_pair (ht : t ≠ []) : (s ++ 32 :: t).getLast? = t.getLast? := by
  obtain ⟨b, t, rfl⟩ := exists_cons_of_ne_nil ht
  simp [List.getLast?_cons]

theorem trim_pair (hs : s.IsPlain) (ht : t.IsPlain) (hs' : s ≠ []) (ht' : t ≠ []) :
    trim (s ++ 32 :: t) = s ++ 32 :: t := by
  refine trim_eq_self (lt_of_mem_pair hs ht) ?_ ?_
  · intro b hb
    obtain ⟨c, s, rfl⟩ := exists_cons_of_ne_nil hs'
    exact hs b (mem_of_head? (by simpa using hb))
  · intro b hb
    rw [getLast?_pair ht'] at hb
    exact ht b (mem_of_getLast? hb)

/-- A character that is not white space belongs to the word being read. -/
theorem wordsFrom_glyph {g : Glyph} (hg : g.isBlank = false) (w : Text) (gs : List Glyph) :
    wordsFrom w (g :: gs) = wordsFrom (w ++ g.bytes) gs := by
  cases w with
  | nil | cons b w => exact if_neg (by simp [hg])

/-- White space ends the word being read. -/
theorem wordsFrom_blank {w : Text} (h : w ≠ []) {g : Glyph} (hg : g.isBlank) (gs : List Glyph) :
    wordsFrom w (g :: gs) = w :: wordsFrom [] gs := by
  cases w with
  | nil => exact absurd rfl h
  | cons b w => exact if_pos hg

theorem wordsFrom_plain (ht : t.IsPlain) (w : Text) (gs : List Glyph) :
    wordsFrom w ((t.map fun b => ⟨b.toNat, [b]⟩) ++ gs) = wordsFrom (w ++ t) gs := by
  induction t generalizing w with
  | nil => simp
  | cons b t ih =>
    have hb := isBlank_of_isVisible (ht b (by simp))
    rw [map_cons, cons_append, wordsFrom_glyph hb, ih fun c hc => ht c (by simp [hc])]
    simp

theorem wordsFrom_nil {w : Text} (h : w ≠ []) : wordsFrom w [] = [w] := by
  cases w with
  | nil => exact absurd rfl h
  | cons b w => rfl

/-- A plain text is one word. -/
theorem words_plain (ht : t.IsPlain) (hne : t ≠ []) : t.words = [t] := by
  have h := wordsFrom_plain ht [] []
  rw [append_nil, nil_append, wordsFrom_nil hne] at h
  rw [words, glyphs_eq_map fun b hb => isVisible_lt (ht b hb), h]

/-- Two plain texts with a space between them are two words. -/
theorem words_pair (hs : s.IsPlain) (ht : t.IsPlain) (hs' : s ≠ []) (ht' : t ≠ []) :
    words (s ++ 32 :: t) = [s, t] := by
  have h := wordsFrom_plain ht [] []
  rw [append_nil, nil_append, wordsFrom_nil ht'] at h
  rw [words, glyphs_eq_map (lt_of_mem_pair hs ht), map_append, map_cons, wordsFrom_plain hs,
    nil_append, wordsFrom_blank hs' (by decide), h]

/-! ### Lines -/

theorem splitAt_append_of_notMem (hs : b ∉ s) (t : Text) :
    splitAt b (s ++ b :: t) = s :: splitAt b t := by
  induction s with
  | nil => simp [splitAt]
  | cons c s ih =>
    obtain ⟨hc, hs⟩ := ne_and_not_mem_of_not_mem_cons hs
    simp [splitAt, ih hs, hc.symm]

theorem splitAt_of_notMem (hs : b ∉ s) : splitAt b s = [s] := by
  induction s with
  | nil => rfl
  | cons c s ih =>
    obtain ⟨hc, hs⟩ := ne_and_not_mem_of_not_mem_cons hs
    simp [splitAt, ih hs, hc.symm]

/-- Lines without line ends are read back from the text that ends each of them. -/
theorem lines_dropLast_unlines {ts : List Text} (hts : ts ≠ []) (h : ∀ t ∈ ts, newline ∉ t) :
    lines (unlines ts).dropLast = ts := by
  induction ts with
  | nil => exact absurd rfl hts
  | cons t ts ih =>
    have ht := h t (by simp)
    cases ts with
    | nil => simpa [unlines, lines] using splitAt_of_notMem ht
    | cons u us =>
      have hne : unlines (u :: us) ≠ [] := by simp [unlines]
      have hsplit : (unlines (t :: u :: us)).dropLast =
          t ++ newline :: (unlines (u :: us)).dropLast := by
        rw [show unlines (t :: u :: us) = (t ++ [newline]) ++ unlines (u :: us) from rfl,
          dropLast_append_of_ne_nil hne]
        simp
      have hrest := ih (by simp) fun v hv => h v (by simp [hv])
      rw [lines] at hrest ⊢
      rw [hsplit, splitAt_append_of_notMem ht, hrest]

/-! ### Numerals -/

theorem toNat_digitByte {d : Nat} (h : d < 10) : (digitByte d).toNat = 48 + d := by
  rw [digitByte, UInt8.toNat_ofNat']
  omega

theorem isDigitByte_digitByte {d : Nat} (h : d < 10) : isDigitByte (digitByte d) := by
  have hd := toNat_digitByte h
  rw [isDigitByte, Bool.and_eq_true, decide_eq_true_eq, decide_eq_true_eq, UInt8.le_iff_toNat_le,
    UInt8.le_iff_toNat_le, hd]
  exact ⟨Nat.le_add_right _ _, by show 48 + d ≤ 57; omega⟩

/-- Reading the digits of a number gives the number. -/
theorem digitsFrom_decimalOnto {fuel : Nat} (h : n < fuel) (acc : Text) :
    digitsFrom 0 (decimalOnto fuel n acc) = digitsFrom n acc := by
  induction fuel generalizing n acc with
  | zero => omega
  | succ fuel ih =>
    rw [decimalOnto]
    split
    · next hn =>
      rw [digitsFrom, if_pos (isDigitByte_digitByte hn), toNat_digitByte hn]
      congr 1
      omega
    · next hn =>
      have hmod : n % 10 < 10 := Nat.mod_lt _ (by omega)
      rw [ih (by omega), digitsFrom, if_pos (isDigitByte_digitByte hmod), toNat_digitByte hmod]
      congr 1
      omega

theorem mem_decimalOnto {fuel : Nat} {acc : Text} (hb : b ∈ decimalOnto fuel n acc) :
    isDigitByte b ∨ b ∈ acc := by
  induction fuel generalizing n acc with
  | zero => exact .inr hb
  | succ fuel ih =>
    rw [decimalOnto] at hb
    split at hb
    · next hn =>
      rcases mem_cons.mp hb with rfl | hb
      · exact .inl (isDigitByte_digitByte hn)
      · exact .inr hb
    · rcases ih hb with hb | hb
      · exact .inl hb
      · rcases mem_cons.mp hb with rfl | hb
        · exact .inl (isDigitByte_digitByte (Nat.mod_lt _ (by omega)))
        · exact .inr hb

theorem isDigitByte_of_mem_ofNat (hb : b ∈ ofNat n) : isDigitByte b :=
  (mem_decimalOnto hb).elim id (by simp)

theorem ofNat_ne_nil (n : Nat) : ofNat n ≠ [] := by
  intro h
  have hd := digitsFrom_decimalOnto (Nat.lt_succ_self n) []
  rw [show decimalOnto n.succ n [] = [] from h, digitsFrom, digitsFrom] at hd
  obtain rfl : 0 = n := by simpa using hd
  exact absurd h (by decide)

@[simp] theorem toNat?_ofNat (n : Nat) : toNat? (ofNat n) = some n := by
  have hd := digitsFrom_decimalOnto (Nat.lt_succ_self n) []
  obtain ⟨b, t, ht⟩ := exists_cons_of_ne_nil (ofNat_ne_nil n)
  rw [show decimalOnto n.succ n [] = b :: t from ht, digitsFrom] at hd
  rw [ht, toNat?]
  · exact hd
  · simp

/-- Different numbers have different numerals. -/
theorem ofNat_injective {a b : Nat} (h : ofNat a = ofNat b) : a = b := by
  have := congrArg toNat? h
  simpa using this

/-- A number is read back from its digits, with the sign in front. -/
theorem toInt?_ofInt (n : Int) : toInt? (ofInt n) = some n := by
  cases n with
  | negSucc n =>
    rw [ofInt, toInt?, toNat?_ofNat]
    rfl
  | ofNat n =>
    obtain ⟨b, t, ht⟩ := exists_cons_of_ne_nil (ofNat_ne_nil n)
    have hb : isDigitByte b := isDigitByte_of_mem_ofNat (n := n) (by simp [ht])
    have hsign : b ≠ 45 ∧ b ≠ 43 := by
      constructor <;> rintro rfl <;> exact absurd hb (by decide)
    rw [ofInt, toInt?, toNat?_ofNat]
    · rfl
    · intro u hu
      rw [ht] at hu
      exact hsign.1 (List.cons.inj hu).1
    · intro u hu
      rw [ht] at hu
      exact hsign.2 (List.cons.inj hu).1

/-- A numeral that fits reads back as the word of its number. -/
theorem toWord?_ofInt {n : Int} (h : fitsWord n) : toWord? (ofInt n) = some (Int64.ofInt n) := by
  rw [toWord?, toInt?_ofInt]
  exact if_pos h

theorem isVisible_of_isDigitByte (h : isDigitByte b) : isVisible b := by
  simp only [isDigitByte, isVisible, Bool.and_eq_true, decide_eq_true_eq,
    UInt8.le_iff_toNat_le] at h ⊢
  have h₁ : 48 ≤ b.toNat := h.1
  have h₂ : b.toNat ≤ 57 := h.2
  exact ⟨by show 33 ≤ b.toNat; omega, by show b.toNat ≤ 126; omega⟩

theorem isPlain_ofNat (n : Nat) : (ofNat n).IsPlain :=
  fun _ hb => isVisible_of_isDigitByte (isDigitByte_of_mem_ofNat hb)

theorem isPlain_ofInt (n : Int) : (ofInt n).IsPlain := by
  cases n with
  | ofNat n => exact isPlain_ofNat n
  | negSucc n =>
    intro b hb
    rcases mem_cons.mp hb with rfl | hb
    · decide
    · exact isPlain_ofNat _ b hb

end Text

end Foolscap
