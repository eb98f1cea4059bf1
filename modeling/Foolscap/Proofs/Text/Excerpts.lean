import Foolscap.Proofs.Text.Characters
import Foolscap.Text.Blank

/-!
# Excerpts of a text

Characters that stand one after the other in a text are the same characters when they are read
alone. What follows them in the text has no part in that: a byte that is stray because of the bytes
behind it is stray without them, too.
-/

namespace Foolscap

open List

namespace Text

/-! ### Characters -/

/-- A byte starts the same sequence if bytes are left out at the end that do not belong to it. -/
theorem sequence?_take (a : UInt8) (front more : Text) :
    sequence? a front = (sequence? a (front ++ more)).filter fun s => s.2 ≤ front.length := by
  unfold sequence?
  split
  · simp [Option.filter_some]
  split
  · match front, more with
    | [], [] => rfl
    | [], b :: _ | b :: _, _ => by_cases hb : isTail b <;> simp [hb, Option.filter_some]
  split
  · match front, more with
    | [], [] | [], [_] | [_], [] => rfl
    | [], b :: c :: _ | [b], c :: _ | b :: c :: _, _ =>
      by_cases hb : secondOfThree a b && isTail c <;> simp [hb, Option.filter_some]
  split
  · match front, more with
    | [], [] | [], [_] | [], [_, _] | [_], [] | [_], [_] | [_, _], [] => rfl
    | [], b :: c :: d :: _ | [b], c :: d :: _ | [b, c], d :: _ | b :: c :: d :: _, _ =>
      by_cases hb : secondOfFour a b && isTail c && isTail d <;> simp [hb, Option.filter_some]
  · rfl

theorem length_of_sequence? {a : UInt8} {rest : Text} {code n : Nat}
    (h : sequence? a rest = some (code, n)) : n ≤ rest.length := by
  have hself := sequence?_take a rest []
  rw [append_nil, h, Option.filter_some] at hself
  simpa using hself

/-- The first character of a text is that of its beginning, if that is long enough. -/
theorem firstGlyph_of_append {a : UInt8} {front more : Text}
    (h : (firstGlyph a (front ++ more)).bytes.length ≤ front.length + 1) :
    firstGlyph a front = firstGlyph a (front ++ more) := by
  have htake := sequence?_take a front more
  unfold firstGlyph at h ⊢
  cases hseq : sequence? a (front ++ more) with
  | none =>
    rw [hseq] at htake
    rw [htake]
    rfl
  | some s =>
    obtain ⟨code, n⟩ := s
    rw [hseq] at h htake
    have hn : n ≤ front.length := by
      rw [length_cons, length_take, Nat.min_eq_left (length_of_sequence? hseq)] at h
      exact Nat.le_of_succ_le_succ h
    rw [Option.filter_some, if_pos (decide_eq_true hn)] at htake
    rw [htake]
    simp [take_append_of_le_length hn]

theorem glyphsAfter_eq_drop (pending : Nat) (t : Text) :
    glyphsAfter pending t = glyphs (t.drop pending) := by
  induction t generalizing pending with
  | nil => cases pending <;> rfl
  | cons a t ih =>
    cases pending with
    | zero => rfl
    | succ n => exact ih n

/-- The first character of a text consists of its first bytes, and the others follow. -/
theorem glyphs_cons (a : UInt8) (t : Text) : ∃ tail rest, t = tail ++ rest ∧
    (firstGlyph a t).bytes = a :: tail ∧ glyphs (a :: t) = firstGlyph a t :: rest.glyphs := by
  obtain ⟨tail, htail⟩ : ∃ tail, (firstGlyph a t).bytes = a :: tail := by
    unfold firstGlyph
    split <;> exact ⟨_, rfl⟩
  have hbytes := firstGlyph_bytes a t
  rw [htail] at hbytes
  refine ⟨tail, t.drop tail.length, (List.cons.inj hbytes).2.symm, htail, ?_⟩
  rw [← glyphsAfter_eq_drop, glyphs, glyphsAfter, htail]
  rfl

variable {gs : List Glyph} {t : Text}

/-- The end of a text, read alone. -/
theorem glyphs_of_suffix {front : List Glyph} (h : t.glyphs = front ++ gs) :
    (ofGlyphs gs).glyphs = gs := by
  induction front generalizing t with
  | nil => rw [← (show t.glyphs = gs from h), bytes_glyphs]
  | cons g front ih =>
    cases t with
    | nil => cases h
    | cons a t =>
      obtain ⟨-, rest, -, -, hglyphs⟩ := glyphs_cons a t
      rw [hglyphs] at h
      exact ih (List.cons.inj h).2

/-- The beginning of a text, read alone. -/
theorem glyphs_of_prefix {back : List Glyph} (h : t.glyphs = gs ++ back) :
    (ofGlyphs gs).glyphs = gs := by
  induction gs generalizing t with
  | nil => rfl
  | cons g gs ih =>
    cases t with
    | nil => cases h
    | cons a t =>
      obtain ⟨tail, rest, ht, htail, hglyphs⟩ := glyphs_cons a t
      rw [hglyphs] at h
      obtain ⟨rfl, hrest⟩ := List.cons.inj h
      have ht' : t = tail ++ ofGlyphs gs ++ ofGlyphs back := by
        rw [ht, ← bytes_glyphs rest, hrest, append_assoc]
        exact congrArg (tail ++ ·) flatMap_append
      -- The first character is found again, since all its bytes are there.
      have hfirst : firstGlyph a (tail ++ ofGlyphs gs) = firstGlyph a t := by
        rw [ht']
        apply firstGlyph_of_append
        rw [← ht', htail, length_cons, length_append]
        omega
      obtain ⟨tail', rest', ht'', htail', hglyphs'⟩ := glyphs_cons a (tail ++ ofGlyphs gs)
      rw [hfirst, htail] at htail'
      obtain rfl : tail = tail' := (List.cons.inj htail').2
      obtain rfl : ofGlyphs gs = rest' := append_cancel_left ht''
      rw [ofGlyphs_cons, htail, cons_append, hglyphs', hfirst, ih hrest]

/-- Characters that stand one after the other in a text are the same characters when they are read
alone. -/
theorem glyphs_ofGlyphs (h : gs <:+: t.glyphs) : (ofGlyphs gs).glyphs = gs := by
  obtain ⟨front, back, ht⟩ := h
  rw [append_assoc] at ht
  exact glyphs_of_prefix (glyphs_of_suffix ht.symm)

/-- A small byte at the end of a text is a character of its own. -/
theorem glyphs_concat {b : UInt8} (hb : b < 128) (s : Text) :
    (s ++ [b]).glyphs = s.glyphs ++ [⟨b.toNat, [b]⟩] := by
  have hbytes := bytes_glyphs (s ++ [b])
  obtain hnil | ⟨front, g, hconcat⟩ := (s ++ [b]).glyphs.eq_nil_or_concat
  · rw [hnil] at hbytes
    simp [ofGlyphs] at hbytes
  rw [concat_eq_append] at hconcat
  have hg : g.Genuine := genuine_of_mem_glyphs (by rw [hconcat]; simp)
  have hofGlyphs : ofGlyphs (front ++ [g]) = ofGlyphs front ++ g.bytes := by simp [ofGlyphs]
  rw [hconcat, hofGlyphs] at hbytes
  -- The byte is the last one of the last character.
  have hlast := congrArg List.getLast? hbytes
  rw [List.getLast?_append, List.getLast?_concat, List.getLast?_eq_some_getLast hg.bytes_ne_nil,
    Option.some_or] at hlast
  have hcode := (hg.mem_bytes_iff hb).mp (Option.some.inj hlast ▸ getLast_mem hg.bytes_ne_nil)
  have hgbytes := hg.bytes_eq hb hcode
  rw [hgbytes] at hbytes
  rw [hconcat, ← append_cancel_right hbytes, glyphs_of_prefix hconcat, ← hcode, ← hgbytes]

/-! ### Words -/

/-- The characters of a trimmed text. -/
theorem glyphs_trim (t : Text) : t.trim.glyphs =
    ((t.glyphs.dropWhile Glyph.isBlank).reverse.dropWhile Glyph.isBlank).reverse := by
  have hback := dropWhile_suffix Glyph.isBlank (l := (t.glyphs.dropWhile Glyph.isBlank).reverse)
  rw [← reverse_prefix, reverse_reverse] at hback
  have hfront := dropWhile_suffix Glyph.isBlank (l := t.glyphs)
  exact glyphs_ofGlyphs (hback.isInfix.trans hfront.isInfix)

/-- There is a word if one was begun or if a character is no blank. -/
theorem wordsFrom_ne_nil {w : Text} (h : w ≠ [] ∨ ∃ g ∈ gs, g.isBlank = false ∧ g.bytes ≠ []) :
    wordsFrom w gs ≠ [] := by
  fun_induction wordsFrom w gs with
  | case1 => simp at h
  | case2 => simp
  | case3 g gs hg ih =>
    refine ih (.inr ?_)
    obtain ⟨g', hmem, hblank, hne⟩ := h.resolve_left (not_not_intro rfl)
    rcases mem_cons.mp hmem with rfl | hmem
    · rw [hg] at hblank
      cases hblank
    · exact ⟨g', hmem, hblank, hne⟩
  | case4 => simp
  | case5 w g gs hg ih =>
    apply ih
    rcases h with hw | ⟨g', hmem, hblank, hne⟩
    · exact .inl (append_ne_nil_of_left_ne_nil hw _)
    · rcases mem_cons.mp hmem with rfl | hmem
      · exact .inl (append_ne_nil_of_right_ne_nil _ hne)
      · exact .inr ⟨g', hmem, hblank, hne⟩

/-- What is left of a text when it is trimmed has a word, if anything is left. -/
theorem words_trim_ne_nil (h : t.trim ≠ []) : t.trim.words ≠ [] := by
  have htrim := glyphs_trim t
  cases hgs : (t.glyphs.dropWhile Glyph.isBlank).reverse.dropWhile Glyph.isBlank with
  | nil =>
    rw [hgs] at htrim
    rw [← bytes_glyphs t.trim, htrim] at h
    exact absurd rfl h
  | cons g gs =>
    rw [hgs] at htrim
    -- The last character is no blank, or else it would have been left out.
    have hblank : g.isBlank = false := by
      have hhead := List.head?_dropWhile_not Glyph.isBlank
        (t.glyphs.dropWhile Glyph.isBlank).reverse
      rw [hgs] at hhead
      exact hhead
    have hmem : g ∈ t.trim.glyphs := by simp [htrim]
    exact wordsFrom_ne_nil (.inr ⟨g, hmem, hblank, (genuine_of_mem_glyphs hmem).bytes_ne_nil⟩)

end Text

end Foolscap
