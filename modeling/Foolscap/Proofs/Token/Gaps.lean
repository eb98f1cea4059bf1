import Foolscap.Proofs.Text.Characters
import Foolscap.Token.Lexer

/-!
# Places and gaps

Where the lexer is in a text, and what it passes over to get to the next token.

## Design Notes

The lexer walks over characters, and positions and gaps are told in bytes.  Since only a genuine
line feed contains its byte, both agree on where lines end, and since only `/` and `*` contain
theirs, on where comments start and end.
-/

namespace Foolscap

open List Text

/-! ### Positions -/

namespace Position

/-- A position of a text: the line is one more than the line feeds in front of it, and the column
counts from the place just after the last of them. -/
structure At (src : Text) (p : Position) : Prop where
  offset_le : p.offset ≤ src.length
  line_eq : p.line = 1 + (src.take p.offset).count Text.newline
  column_eq : ∃ start ≤ p.offset, p.column = p.offset - start + 1 ∧
    (start = 0 ∨ src[start - 1]? = some Text.newline) ∧
    Text.newline ∉ (src.take p.offset).drop start

theorem advance_eq_forward {t : Text} (h : newline ∉ t) (p : Position) :
    p.advance t = p.forward t.length := by
  induction t generalizing p with
  | nil => rfl
  | cons b t ih =>
    obtain ⟨hb, ht⟩ := not_or.mp (mt mem_cons.mpr h)
    rw [advance_cons, ih ht, advanceByte, if_neg (Ne.symm hb), forward, forward, length_cons]
    congr 1
    · exact Nat.add_right_comm _ _ _
    · exact Nat.add_right_comm _ _ _

theorem line_advance (p : Position) (t : Text) : (p.advance t).line = p.line + t.count newline := by
  induction t generalizing p with
  | nil => rfl
  | cons b t ih =>
    rw [advance_cons, ih, count_cons, advanceByte]
    by_cases hb : b = newline
    · rw [if_pos hb, if_pos (beq_iff_eq.mpr hb)]
      show p.line + 1 + _ = _
      omega
    · rw [if_neg hb, if_neg (mt beq_iff_eq.mp hb)]
      rfl

/-- Columns go on in a line, and start again after the last line feed. -/
theorem column_advance (p : Position) (t : Text) :
    (newline ∉ t ∧ (p.advance t).column = p.column + t.length) ∨
      ∃ u v, t = u ++ newline :: v ∧ newline ∉ v ∧
        (p.advance t).column = v.length + 1 := by
  induction t generalizing p with
  | nil => exact .inl ⟨nofun, rfl⟩
  | cons b t ih =>
    rcases ih (p.advanceByte b) with ⟨hnone, hcolumn⟩ | ⟨u, v, rfl, hnone, hcolumn⟩
    · by_cases hb : b = newline
      · refine .inr ⟨[], t, by rw [hb]; rfl, hnone, ?_⟩
        rw [advance_cons, hcolumn, advanceByte, if_pos hb]
        exact Nat.add_comm 1 _
      · refine .inl ⟨?_, ?_⟩
        · exact mt mem_cons.mp (not_or.mpr ⟨Ne.symm hb, hnone⟩)
        · rw [advance_cons, hcolumn, advanceByte, if_neg hb, length_cons]
          show p.column + 1 + _ = _
          omega
    · exact .inr ⟨b :: u, v, rfl, hnone, hcolumn⟩

/-- Counting along the start of a text gives a position of the text. -/
theorem at_advance (t rest : Text) : (start.advance t).At (t ++ rest) := by
  have hoffset : (start.advance t).offset = t.length := by
    rw [advance_offset]
    exact Nat.zero_add _
  have htake : (t ++ rest).take (start.advance t).offset = t := by
    rw [hoffset, take_left]
  refine ⟨?_, ?_, ?_⟩
  · rw [hoffset, length_append]
    exact Nat.le_add_right _ _
  · rw [htake, line_advance]
    rfl
  · rw [htake, hoffset]
    rcases column_advance start t with ⟨hnone, hcolumn⟩ | ⟨u, v, rfl, hnone, hcolumn⟩
    · refine ⟨0, Nat.zero_le _, ?_, .inl rfl, ?_⟩
      · rw [hcolumn]
        exact Nat.add_comm 1 _
      · rwa [drop_zero]
    · refine ⟨u.length + 1, ?_, ?_, .inr ?_, ?_⟩
      · rw [length_append, length_cons]
        omega
      · rw [hcolumn, length_append, length_cons]
        omega
      · rw [Nat.add_sub_cancel, append_assoc, List.getElem?_append_right (Nat.le_refl _),
          Nat.sub_self]
        rfl
      · have hdrop : (u ++ newline :: v).drop (u.length + 1) = v := by
          rw [← drop_drop, drop_left]
          rfl
        rwa [hdrop]

/-- The lexer counts as the bytes of the text do. -/
theorem after_eq_advance {g : Glyph} (hg : g.Genuine) (p : Position) :
    p.after g = p.advance g.bytes := by
  unfold after
  by_cases hcode : g.code = 10
  · rw [if_pos hcode, hg.bytes_eq (b := newline) (by decide) hcode]
    rfl
  · have hline : newline ∉ g.bytes := mt (hg.mem_bytes_iff (by decide)).mp hcode
    rw [if_neg hcode, advance_eq_forward hline]

end Position

namespace Token

/-! ### Gaps -/

/-- Bytes between tokens: blanks and comments.  A line comment ends with its line and a block
comment with the first `*/`; the last comment may be open, and then the bytes end in the middle of
it. -/
inductive Filler : Gap → Text → Prop where
  | nil : Filler .blank []
  | openLine {body : Text} (hline : Text.newline ∉ body) (hnul : 0 ∉ body) :
      Filler .lineComment (47 :: 47 :: body)
  | openBlock {body : Text} (hnul : 0 ∉ body) (hopen : ¬ [42, 47] <:+: body) :
      Filler .blockComment (47 :: 42 :: body)
  | blank {gap : Gap} {b : UInt8} {t : Text} (hb : b = 32 ∨ b = 9 ∨ b = 13 ∨ b = 10)
      (h : Filler gap t) : Filler gap (b :: t)
  | line {gap : Gap} {body t : Text} (hline : Text.newline ∉ body) (hnul : 0 ∉ body)
      (h : Filler gap t) : Filler gap (47 :: 47 :: (body ++ Text.newline :: t))
  | block {gap : Gap} {body t : Text} (hnul : 0 ∉ body) (hopen : ¬ [42, 47] <:+: body ++ [42])
      (h : Filler gap t) : Filler gap (47 :: 42 :: (body ++ 42 :: 47 :: t))

namespace Filler

variable {gap : Gap} {b t : Text}

/-- A line comment gets longer. -/
theorem extend_line (h : Filler gap (47 :: 47 :: t)) (hline : newline ∉ b) (hnul : 0 ∉ b) :
    Filler gap (47 :: 47 :: (b ++ t)) := by
  cases h with
  | openLine hline' hnul' => exact .openLine (by simp [hline, hline']) (by simp [hnul, hnul'])
  | blank hb _ => simp at hb
  | line hline' hnul' h =>
    rw [← append_assoc]
    exact .line (by simp [hline, hline']) (by simp [hnul, hnul']) h

/-- Bytes in front of others close no comment, unless their last one does together with the first of
the others. -/
theorem not_infix_append (hb : 42 ∉ b ∨ b = [42] ∧ t.head? ≠ some 47) (ht : ¬ [42, 47] <:+: t) :
    ¬ ([42, 47] : Text) <:+: b ++ t := by
  rcases hb with hb | ⟨rfl, hhead⟩
  · induction b with
    | nil => exact ht
    | cons c b ih =>
      obtain ⟨hc, hb⟩ := not_or.mp (mt mem_cons.mpr hb)
      rw [cons_append, infix_cons_iff]
      rintro (hstart | hinfix)
      · exact hc (cons_prefix_cons.mp hstart).1
      · exact ih hb hinfix
  · rw [singleton_append, infix_cons_iff]
    rintro (hstart | hinfix)
    · obtain ⟨more, hmore⟩ := (cons_prefix_cons.mp hstart).2
      exact hhead (by rw [← hmore]; rfl)
    · exact ht hinfix

/-- A block comment gets longer. -/
theorem extend_block (h : Filler gap (47 :: 42 :: t)) (hnul : 0 ∉ b)
    (hb : 42 ∉ b ∨ b = [42] ∧ t.head? ≠ some 47) : Filler gap (47 :: 42 :: (b ++ t)) := by
  cases h with
  | openBlock hnul' hopen =>
    exact .openBlock (by simp [hnul, hnul']) (not_infix_append hb hopen)
  | blank hb _ => simp at hb
  | @block _ body t hnul' hopen h =>
    rw [← append_assoc]
    refine .block (by simp [hnul, hnul']) ?_ h
    rw [append_assoc]
    refine not_infix_append ?_ hopen
    -- The comment and its `*` start like the whole rest.
    cases body <;> exact hb

/-- What is between tokens ends with a blank or with the end of a comment. -/
theorem ends (h : Filler .blank t) : t = [] ∨ ∃ front c, t = front ++ [c] ∧
    (c = 32 ∨ c = 9 ∨ c = 13 ∨ c = 10 ∨ c = 47) := by
  generalize hgap : Gap.blank = gap at h
  induction h with
  | nil => exact .inl rfl
  | openLine | openBlock => cases hgap
  | @blank _ b t hb h ih =>
    right
    rcases ih hgap with rfl | ⟨front, c, rfl, hc⟩
    · refine ⟨[], b, rfl, ?_⟩
      rcases hb with hb | hb | hb | hb <;> simp [hb]
    · exact ⟨b :: front, c, rfl, hc⟩
  | @line _ body t hline hnul h ih =>
    right
    rcases ih hgap with rfl | ⟨front, c, rfl, hc⟩
    · exact ⟨47 :: 47 :: body, newline, rfl, by decide⟩
    · exact ⟨47 :: 47 :: (body ++ newline :: front), c, by simp, hc⟩
  | @block _ body t hnul hopen h ih =>
    right
    rcases ih hgap with rfl | ⟨front, c, rfl, hc⟩
    · exact ⟨47 :: 42 :: (body ++ [42]), 47, by simp, by decide⟩
    · exact ⟨47 :: 42 :: (body ++ 42 :: 47 :: front), c, by simp, hc⟩

end Filler

/-! ### Skipping -/

/-- The bytes that begin what the lexer is in the middle of. -/
def Gap.opening : Gap → Text
  | .blank => []
  | .lineComment => [47, 47]
  | .blockComment => [47, 42]

/-- In the middle of one thing, the lexer gets over some characters of its input to a position and
the rest of the input, and is in the middle of another thing then. -/
def Passes (gap gap' : Gap) (p q : Position) (gs rest : List Glyph) : Prop :=
  ∃ skipped, gs = skipped ++ rest ∧ q = p.advance (Text.ofGlyphs skipped) ∧
    Filler gap' (gap.opening ++ Text.ofGlyphs skipped)

/-- The input ends here, or a character with code 0 ends it. -/
def AtEnd (rest : List Glyph) : Prop := ∀ g ∈ rest.head?, g.code = 0

namespace Passes

variable {gap' : Gap} {p q : Position} {g h : Glyph} {gs rest : List Glyph}

theorem refl (gap : Gap) (p : Position) (gs : List Glyph) : Passes gap gap p p gs gs := by
  refine ⟨[], rfl, rfl, ?_⟩
  cases gap with
  | blank => exact .nil
  | lineComment => exact .openLine nofun nofun
  | blockComment => exact .openBlock nofun (by decide)

/-- One more character is passed in front. -/
theorem cons {gap gap₁ : Gap} (hg : g.Genuine) (hrest : Passes gap₁ gap' (p.after g) q gs rest)
    (hfill : ∀ skipped, gs = skipped ++ rest → Filler gap' (gap₁.opening ++ ofGlyphs skipped) →
      Filler gap' (gap.opening ++ (g.bytes ++ ofGlyphs skipped))) :
    Passes gap gap' p q (g :: gs) rest := by
  obtain ⟨skipped, hgs, rfl, hfill'⟩ := hrest
  refine ⟨g :: skipped, by rw [hgs, cons_append], ?_, ?_⟩
  · rw [ofGlyphs_cons, Position.advance_append, Position.after_eq_advance hg]
  · rw [ofGlyphs_cons]
    exact hfill skipped hgs hfill'

theorem blank (hg : g.Genuine) (hsep : g.isSeparator)
    (hrest : Passes .blank gap' (p.after g) q gs rest) : Passes .blank gap' p q (g :: gs) rest := by
  refine hrest.cons hg fun skipped _ hfill => ?_
  have hbyte : ∃ b : UInt8, g.bytes = [b] ∧ (b = 32 ∨ b = 9 ∨ b = 13 ∨ b = 10) := by
    simp only [Glyph.isSeparator, Bool.or_eq_true, decide_eq_true_eq] at hsep
    rcases hsep with ((hsep | hsep) | hsep) | hsep
    · exact ⟨32, hg.bytes_eq (by decide) hsep, by decide⟩
    · exact ⟨9, hg.bytes_eq (by decide) hsep, by decide⟩
    · exact ⟨10, hg.bytes_eq (by decide) hsep, by decide⟩
    · exact ⟨13, hg.bytes_eq (by decide) hsep, by decide⟩
  obtain ⟨b, hbytes, hb⟩ := hbyte
  rw [hbytes]
  exact .blank hb hfill

/-- A comment begins. -/
theorem opens {gap : Gap} {c : UInt8} (hgap : gap.opening = [47, c]) (hc : c < 128)
    (hg : g.Genuine) (hh : h.Genuine) (hslash : g.code = 47) (hcode : h.code = c.toNat)
    (hrest : Passes gap gap' ((p.after g).after h) q gs rest) :
    Passes .blank gap' p q (g :: h :: gs) rest := by
  obtain ⟨skipped, rfl, rfl, hfill⟩ := hrest
  refine ⟨g :: h :: skipped, rfl, ?_, ?_⟩
  · rw [ofGlyphs_cons, ofGlyphs_cons, Position.advance_append, Position.advance_append,
      Position.after_eq_advance hg, Position.after_eq_advance hh]
  · rw [ofGlyphs_cons, ofGlyphs_cons, hg.bytes_eq (b := 47) (by decide) hslash,
      hh.bytes_eq hc hcode]
    rw [hgap] at hfill
    exact hfill

theorem lineEnd (hg : g.Genuine) (hcode : g.code = 10)
    (hrest : Passes .blank gap' (p.after g) q gs rest) :
    Passes .lineComment gap' p q (g :: gs) rest := by
  refine hrest.cons hg fun skipped _ hfill => ?_
  rw [hg.bytes_eq (b := newline) (by decide) hcode]
  show Filler gap' (47 :: 47 :: ([] ++ newline :: ofGlyphs skipped))
  exact .line nofun nofun hfill

theorem lineMore (hg : g.Genuine) (hline : g.code ≠ 10) (hnul : g.code ≠ 0)
    (hrest : Passes .lineComment gap' (p.after g) q gs rest) :
    Passes .lineComment gap' p q (g :: gs) rest :=
  hrest.cons hg fun _ _ hfill => hfill.extend_line (mt (hg.mem_bytes_iff (by decide)).mp hline)
    (mt (hg.mem_bytes_iff (by decide)).mp hnul)

theorem blockEnd (hg : g.Genuine) (hh : h.Genuine) (hstar : g.code = 42) (hslash : h.code = 47)
    (hrest : Passes .blank gap' ((p.after g).after h) q gs rest) :
    Passes .blockComment gap' p q (g :: h :: gs) rest := by
  obtain ⟨skipped, rfl, rfl, hfill⟩ := hrest
  refine ⟨g :: h :: skipped, rfl, ?_, ?_⟩
  · rw [ofGlyphs_cons, ofGlyphs_cons, Position.advance_append, Position.advance_append,
      Position.after_eq_advance hg, Position.after_eq_advance hh]
  · rw [ofGlyphs_cons, ofGlyphs_cons, hg.bytes_eq (b := 42) (by decide) hstar,
      hh.bytes_eq (b := 47) (by decide) hslash]
    show Filler gap' (47 :: 42 :: ([] ++ 42 :: 47 :: ofGlyphs skipped))
    exact .block nofun (by decide) hfill

theorem blockMore (hg : g.Genuine) (hgs : ∀ h ∈ gs.head?, h.Genuine) (hnul : g.code ≠ 0)
    (hclose : g.code = 42 → ∀ h ∈ gs.head?, h.code ≠ 47)
    (hrest : Passes .blockComment gap' (p.after g) q gs rest) :
    Passes .blockComment gap' p q (g :: gs) rest := by
  refine hrest.cons hg fun skipped hskipped hfill => ?_
  subst hskipped
  refine hfill.extend_block (mt (hg.mem_bytes_iff (by decide)).mp hnul) ?_
  by_cases hstar : g.code = 42
  · refine .inr ⟨hg.bytes_eq (b := 42) (by decide) hstar, ?_⟩
    cases skipped with
    | nil => nofun
    | cons h skipped =>
      have hh := hgs h rfl
      intro hhead
      exact hclose hstar h rfl (hh.code_of_head? (b := 47) (by decide) hhead)
  · exact .inl (mt (hg.mem_bytes_iff (by decide)).mp hstar)

end Passes

/-- An outcome of skipping is right: what was skipped are blanks and comments.  If the lexer is in
front of a character then, that is no blank, and if a comment is still open, the input has ended. -/
def Skipped.Right (gap : Gap) (p : Position) (gs : List Glyph) : Skipped → Prop
  | .found q rest => (∀ g ∈ rest.head?, g.isSeparator = false) ∧
      (Passes gap .blank p q gs rest ∨ Passes gap .lineComment p q gs rest ∧ AtEnd rest)
  | .unterminated q => ∃ rest, Passes gap .blockComment p q gs rest ∧ AtEnd rest

/-- More characters are skipped in front. -/
theorem Skipped.Right.extend {gap gap₁ : Gap} {p p₁ : Position} {gs gs₁ : List Glyph} {r : Skipped}
    (h : r.Right gap₁ p₁ gs₁)
    (hpasses : ∀ gap' q rest, Passes gap₁ gap' p₁ q gs₁ rest → Passes gap gap' p q gs rest) :
    r.Right gap p gs := by
  cases r with
  | found q rest =>
    obtain ⟨hsep, hrest | ⟨hrest, hend⟩⟩ := h
    · exact ⟨hsep, .inl (hpasses _ _ _ hrest)⟩
    · exact ⟨hsep, .inr ⟨hpasses _ _ _ hrest, hend⟩⟩
  | unterminated q =>
    obtain ⟨rest, hrest, hend⟩ := h
    exact ⟨rest, hpasses _ _ _ hrest, hend⟩

/-- What is skipped are blanks and comments. -/
theorem skip_right {gap : Gap} {p : Position} {gs : List Glyph} (hgs : ∀ g ∈ gs, g.Genuine) :
    (skip gap p gs).Right gap p gs := by
  fun_induction skip gap p gs with
  | case1 p => exact ⟨[], .refl _ _ _, fun _ h => by cases h⟩
  | case2 gap p hgap =>
    refine ⟨by simp, ?_⟩
    cases gap with
    | blank => exact .inl (.refl _ _ _)
    | lineComment => exact .inr ⟨.refl _ _ _, fun _ h => by cases h⟩
    | blockComment => exact absurd rfl hgap
  | case3 p g hsep =>
    exact ⟨by simp, .inl (.blank (hgs g mem_cons_self) hsep (.refl _ _ _))⟩
  | case4 p g hsep =>
    refine ⟨?_, .inl (.refl _ _ _)⟩
    rintro _ ⟨⟩
    exact Bool.eq_false_iff.mpr hsep
  | case5 p g h rest hsep ih =>
    obtain ⟨hg, hrest⟩ := forall_mem_cons.mp hgs
    exact (ih hrest).extend fun _ _ _ => .blank hg hsep
  | case6 p g h rest hsep hcodes ih | case7 p g h rest hsep _ hcodes ih =>
    obtain ⟨hg, hh, hrest⟩ : g.Genuine ∧ h.Genuine ∧ ∀ g ∈ rest, g.Genuine := by simpa using hgs
    simp only [Bool.and_eq_true, decide_eq_true_eq] at hcodes
    exact (ih hrest).extend fun _ _ _ => .opens rfl (by decide) hg hh hcodes.1 hcodes.2
  | case8 p g h rest hsep =>
    refine ⟨?_, .inl (.refl _ _ _)⟩
    rintro _ ⟨⟩
    exact Bool.eq_false_iff.mpr hsep
  | case9 p g rest hline ih =>
    obtain ⟨hg, hrest⟩ := forall_mem_cons.mp hgs
    exact (ih hrest).extend fun _ _ _ => .lineEnd hg hline
  | case10 p g rest hline hnul =>
    refine ⟨?_, .inr ⟨.refl _ _ _, ?_⟩⟩
    · rintro _ ⟨⟩
      simp [Glyph.isSeparator, hnul]
    · rintro _ ⟨⟩
      exact hnul
  | case11 p g rest hline hnul ih =>
    obtain ⟨hg, hrest⟩ := forall_mem_cons.mp hgs
    exact (ih hrest).extend fun _ _ _ => .lineMore hg hline hnul
  | case12 p g hnul =>
    refine ⟨[g], .refl _ _ _, ?_⟩
    rintro _ ⟨⟩
    exact hnul
  | case13 p g hnul =>
    exact ⟨[], .blockMore (hgs g mem_cons_self) (by simp) hnul (by simp) (.refl _ _ _),
      fun _ h => by cases h⟩
  | case14 p g h rest hcodes ih =>
    obtain ⟨hg, hh, hrest⟩ : g.Genuine ∧ h.Genuine ∧ ∀ g ∈ rest, g.Genuine := by simpa using hgs
    simp only [Bool.and_eq_true, decide_eq_true_eq] at hcodes
    exact (ih hrest).extend fun _ _ _ => .blockEnd hg hh hcodes.1 hcodes.2
  | case15 p g h rest hcodes hnul =>
    refine ⟨g :: h :: rest, .refl _ _ _, ?_⟩
    rintro _ ⟨⟩
    exact hnul
  | case16 p g h rest hcodes hnul ih =>
    obtain ⟨hg, hrest⟩ := forall_mem_cons.mp hgs
    refine (ih hrest).extend fun _ _ _ => .blockMore hg ?_ hnul ?_
    · rintro _ ⟨⟩
      exact hrest h mem_cons_self
    · rintro hstar _ ⟨⟩ hslash
      exact hcodes (by simp [hstar, hslash])

end Token

end Foolscap
