import Foolscap.Proofs.Text.Excerpts
import Foolscap.Proofs.Token.Stretches

/-!
# Tokens of an excerpt

A stretch of the tokens of a text, read alone.  The lexer looks at no more than one character
behind a token, so the same tokens are found whatever stands in front of the stretch, and behind it
there may be a semicolon instead of what the text goes on with.
-/

namespace Foolscap

open List

namespace Token

/-- A character starts a token, if other input follows: it is no blank, and no comment starts. -/
structure Opens (g : Glyph) (gs : List Glyph) : Prop where
  blank : g.isSeparator = false
  comment : g.code = 47 → ∀ h ∈ gs.head?, h.code ≠ 47 ∧ h.code ≠ 42

/-- Input ends a token as well as other input does: it goes on in the same way, or with a
semicolon. -/
def Closes (rest rest' : List Glyph) : Prop :=
  rest'.head? = rest.head? ∨ ∃ h ∈ rest'.head?, h.code = 59

namespace Closes

variable {rest rest' : List Glyph}

theorem append (h : Closes rest rest') (used : List Glyph) :
    Closes (used ++ rest) (used ++ rest') := by
  cases used with
  | nil => exact h
  | cons g used => exact .inl rfl

/-- What the input does not go on with, the other does not go on with either, if it is not a
semicolon. -/
theorem head {P : Glyph → Prop} (h : Closes rest rest') (hsemicolon : ∀ g, g.code = 59 → P g)
    (hrest : ∀ g ∈ rest.head?, P g) : ∀ g ∈ rest'.head?, P g := by
  intro g hg
  rcases h with h | ⟨h, hmem, hcode⟩
  · exact hrest g (h ▸ hg)
  · obtain rfl : h = g := Option.some.inj (hmem.symm.trans hg)
    exact hsemicolon h hcode

theorem opens {g : Glyph} {run : List Glyph} (h : Closes rest rest')
    (hopens : Opens g (run ++ rest)) : Opens g (run ++ rest') := by
  refine ⟨hopens.blank, fun hcode => (h.append run).head (fun g hg => ?_) (hopens.comment hcode)⟩
  rw [hg]
  decide

end Closes

/-! ### Blanks and comments -/

variable {g : Glyph} {gs : List Glyph} {p : Position}

theorem Opens.skip (h : Opens g gs) (p : Position) :
    skip .blank p (g :: gs) = .found p (g :: gs) := by
  cases gs with
  | nil => simp [Token.skip, h.blank]
  | cons h' gs =>
    have hcomment := h.comment
    simp only [List.head?_cons, Option.mem_def, Option.some.injEq, forall_eq'] at hcomment
    rw [Token.skip]
    simp only [h.blank, Bool.false_eq_true, if_false, Bool.and_eq_true, decide_eq_true_eq]
    rw [if_neg fun hc => (hcomment hc.1).1 hc.2, if_neg fun hc => (hcomment hc.1).2 hc.2]

theorem skip_separator (h : g.isSeparator) (p : Position) (gs : List Glyph) :
    skip .blank p (g :: gs) = skip .blank (p.after g) gs := by
  cases gs <;> simp [skip, h]

/-- What is skipped in front of a token does not depend on what follows its first character. -/
theorem skip_replace {gap : Gap} {q : Position} {rest : List Glyph}
    (h : skip gap p gs = .found q (g :: rest)) (hnul : g.code ≠ 0) :
    ∃ skipped, gs = skipped ++ g :: rest ∧ Opens g rest ∧ ∀ p' rest', Opens g rest' →
      ∃ q', skip gap p' (skipped ++ g :: rest') = .found q' (g :: rest') := by
  fun_induction skip gap p gs with
  | case1 => cases h
  | case2 => cases h
  | case3 => cases h
  | case4 p g' hsep =>
    cases h
    refine ⟨[], rfl, ⟨Bool.eq_false_iff.mpr hsep, ?_⟩, fun p' _ hopens => ⟨p', hopens.skip p'⟩⟩
    rintro - h ⟨⟩
  | case5 p g' h' gs hsep ih =>
    obtain ⟨skipped, hgs, hopens, hall⟩ := ih h
    refine ⟨g' :: skipped, congrArg (g' :: ·) hgs, hopens, fun p' rest' hopens' => ?_⟩
    rw [cons_append, skip_separator hsep]
    exact hall _ rest' hopens'
  | case6 p g' h' gs hsep hcodes ih =>
    obtain ⟨skipped, hgs, hopens, hall⟩ := ih h
    refine ⟨g' :: h' :: skipped, by rw [hgs]; rfl, hopens, fun p' rest' hopens' => ?_⟩
    rw [cons_append, cons_append, skip, if_neg hsep, if_pos hcodes]
    exact hall _ rest' hopens'
  | case7 p g' h' gs hsep hcodes hcodes' ih =>
    obtain ⟨skipped, hgs, hopens, hall⟩ := ih h
    refine ⟨g' :: h' :: skipped, by rw [hgs]; rfl, hopens, fun p' rest' hopens' => ?_⟩
    rw [cons_append, cons_append, skip, if_neg hsep, if_neg hcodes, if_pos hcodes']
    exact hall _ rest' hopens'
  | case8 p g' h' gs hsep hline hblock =>
    cases h
    simp only [Bool.and_eq_true, decide_eq_true_eq, not_and] at hline hblock
    refine ⟨[], rfl, ⟨Bool.eq_false_iff.mpr hsep, fun hcode => ?_⟩,
      fun p' _ hopens => ⟨p', hopens.skip p'⟩⟩
    rintro _ ⟨⟩
    exact ⟨hline hcode, hblock hcode⟩
  | case9 p g' gs hline ih =>
    obtain ⟨skipped, hgs, hopens, hall⟩ := ih h
    refine ⟨g' :: skipped, congrArg (g' :: ·) hgs, hopens, fun p' rest' hopens' => ?_⟩
    rw [cons_append, skip, if_pos hline]
    exact hall _ rest' hopens'
  | case10 p g' gs hline hnul' =>
    cases h
    exact absurd hnul' hnul
  | case11 p g' gs hline hnul' ih =>
    obtain ⟨skipped, hgs, hopens, hall⟩ := ih h
    refine ⟨g' :: skipped, congrArg (g' :: ·) hgs, hopens, fun p' rest' hopens' => ?_⟩
    rw [cons_append, skip, if_neg hline, if_neg hnul']
    exact hall _ rest' hopens'
  | case12 => cases h
  | case13 => cases h
  | case14 p g' h' gs hcodes ih =>
    obtain ⟨skipped, hgs, hopens, hall⟩ := ih h
    refine ⟨g' :: h' :: skipped, by rw [hgs]; rfl, hopens, fun p' rest' hopens' => ?_⟩
    rw [cons_append, cons_append, skip, if_pos hcodes]
    exact hall _ rest' hopens'
  | case15 => cases h
  | case16 p g' h' gs hcodes hnul' ih =>
    obtain ⟨skipped, hgs, hopens, hall⟩ := ih h
    refine ⟨g' :: skipped, congrArg (g' :: ·) hgs, hopens, fun p' rest' hopens' => ?_⟩
    -- The character behind is the same, be it skipped or the first one of the token.
    obtain ⟨more, hmore⟩ : ∃ more, skipped ++ g :: rest' = h' :: more := by
      cases skipped with
      | nil => exact ⟨rest', by rw [(List.cons.inj hgs).1]; rfl⟩
      | cons c skipped => exact ⟨_, by rw [(List.cons.inj hgs).1]; rfl⟩
    obtain ⟨q', hq'⟩ := hall (p'.after g') rest' hopens'
    refine ⟨q', ?_⟩
    rw [cons_append, hmore, skip, if_neg hcodes, if_neg hnul', ← hmore, hq']

/-! ### One token -/

/-- A run of characters ends where the input goes on with something else. -/
theorem span_run {f : Glyph → Bool} {run rest : List Glyph} (hrun : ∀ h ∈ run, f h)
    (hend : ∀ h ∈ rest.head?, f h = false) :
    (run ++ rest).takeWhile f = run ∧ (run ++ rest).dropWhile f = rest := by
  rw [takeWhile_append_of_pos hrun, dropWhile_append_of_pos hrun]
  cases rest with
  | nil => simp
  | cons h rest => simp [hend h rfl]

theorem not_of_semicolon (h : g.code = 59) : g.isDigit = false ∧ g.isWordPart = false := by
  unfold Glyph.isWordPart Glyph.isWordStart Glyph.isDigit
  rw [h]
  decide

/-- The token that a character starts does not depend on what follows. -/
theorem lexeme_replace (hinner : (lexeme p g gs).1.kind.isLast = false) :
    ∃ run, gs = run ++ (lexeme p g gs).2 ∧ ∀ p' rest', Closes (lexeme p g gs).2 rest' →
      lexeme p' g (run ++ rest') =
        (⟨(lexeme p g gs).1.kind, (lexeme p g gs).1.literal, p'⟩, rest') := by
  unfold lexeme at hinner ⊢
  cases hsingle : single? g.code with
  | some k => exact ⟨[], rfl, fun _ _ _ => rfl⟩
  | none =>
    cases hdouble : double? g.code with
    | some d =>
      obtain ⟨second, k⟩ := d
      simp only [hsingle, hdouble] at hinner ⊢
      split at hinner
      · next hstarts =>
        cases gs with
        | nil => cases hstarts
        | cons h gs =>
          exact ⟨[h], by simp [hstarts], fun p' rest' _ => by simp_all [Glyph.startsWith]⟩
      · next hstarts =>
        split at hinner
        · next hcode =>
          rw [if_neg hstarts, if_pos hcode]
          refine ⟨[], rfl, fun p' rest' hcloses => ?_⟩
          have hsecond : second = 61 := by
            rw [hcode] at hdouble
            cases hdouble
            rfl
          have hstarts' : Glyph.startsWith second rest' = false := by
            have hhead := hcloses.head (P := fun g => g.code ≠ second)
              (fun g hg => by rw [hg, hsecond]; decide) fun g hg hcode => hstarts (by
                cases gs with
                | nil => cases hg
                | cons h gs =>
                  cases hg
                  simpa [Glyph.startsWith] using hcode)
            cases rest' with
            | nil => rfl
            | cons h rest' => simpa [Glyph.startsWith] using hhead h rfl
          simp [hstarts', hcode]
        · cases hinner
    | none =>
      simp only [hsingle, hdouble] at hinner ⊢
      by_cases hdigit : g.isDigit
      · obtain ⟨hgs, hrun, hend⟩ := run_spec Glyph.isDigit gs
        rw [if_pos hdigit]
        refine ⟨_, hgs, fun p' rest' hcloses => ?_⟩
        obtain ⟨htake, hdrop⟩ := span_run hrun
          (hcloses.head (fun g hg => (not_of_semicolon hg).1) hend)
        rw [if_pos hdigit, htake, hdrop]
      · rw [if_neg hdigit] at hinner ⊢
        by_cases hword : g.isWordStart
        · obtain ⟨hgs, hrun, hend⟩ := run_spec Glyph.isWordPart gs
          rw [if_pos hword]
          refine ⟨_, hgs, fun p' rest' hcloses => ?_⟩
          obtain ⟨htake, hdrop⟩ := span_run hrun
            (hcloses.head (fun g hg => (not_of_semicolon hg).2) hend)
          rw [if_neg hdigit, if_pos hword, htake, hdrop]
        · rw [if_neg hword] at hinner
          cases hinner

/-- The next token does not depend on what follows, nor on what is skipped in front of it. -/
theorem next_replace (hinner : (next p gs).1.kind.isLast = false) :
    ∃ skipped used, gs = skipped ++ (used ++ (next p gs).2) ∧
      ((∀ g ∈ gs, g.Genuine) → (next p gs).1.pos = p.advance (Text.ofGlyphs skipped)) ∧
      ∀ p' rest', Closes (next p gs).2 rest' →
        (∃ q, next p' (skipped ++ (used ++ rest')) =
          (⟨(next p gs).1.kind, (next p gs).1.literal, q⟩, rest')) ∧
        next p' (used ++ rest') = (⟨(next p gs).1.kind, (next p gs).1.literal, p'⟩, rest') := by
  have hright : (∀ g ∈ gs, g.Genuine) → (skip .blank p gs).Right .blank p gs := skip_right
  unfold next skipBlanks at hinner ⊢
  cases hs : skip .blank p gs with
  | unterminated q =>
    rw [hs] at hinner
    cases hinner
  | found q rest =>
    rw [hs] at hinner hright
    cases rest with
    | nil => cases hinner
    | cons g rest =>
      by_cases hnul : g.code = 0
      · simp only [if_pos hnul] at hinner
        cases hinner
      simp only [if_neg hnul] at hinner ⊢
      obtain ⟨skipped, hgs, hopens, hall⟩ := skip_replace hs hnul
      obtain ⟨run, hrest, hlexeme⟩ := lexeme_replace hinner
      refine ⟨skipped, g :: run, ?_, fun hgenuine => ?_, fun p' rest' hcloses => ⟨?_, ?_⟩⟩
      · rw [hgs, cons_append, ← hrest]
      · obtain ⟨-, hpasses⟩ := hright hgenuine
        obtain ⟨skipped', hgs', hq, -⟩ :=
          hpasses.resolve_right fun hopen => hnul (hopen.2 g rfl)
        obtain rfl : skipped = skipped' := append_cancel_right (hgs.symm.trans hgs')
        rw [(lexed_lexeme q g rest).2, hq]
      · rw [hrest] at hopens
        obtain ⟨q', hq'⟩ := hall p' (run ++ rest') (hcloses.opens hopens)
        refine ⟨q', ?_⟩
        rw [cons_append, hq']
        simp only [if_neg hnul]
        exact hlexeme q' rest' hcloses
      · rw [hrest] at hopens
        rw [cons_append, (hcloses.opens hopens).skip]
        simp only [if_neg hnul]
        exact hlexeme p' rest' hcloses

/-! ### Stretches -/

/-- Tokens differ in their places only. -/
def Alike (ts us : List Token) : Prop :=
  ts.map (fun t => (t.kind, t.literal)) = us.map fun t => (t.kind, t.literal)

theorem Alike.cons {ts us : List Token} (h : Alike ts us) (t : Token) (p : Position) :
    Alike (t :: ts) (⟨t.kind, t.literal, p⟩ :: us) := congrArg ((t.kind, t.literal) :: ·) h

namespace Scans

variable {p q : Position} {gs gs' rest : List Glyph} {t : Token} {ts : List Token}

theorem of_next (h : next p gs = (t, gs')) (inner : t.kind.isLast = false)
    (tail : Scans t.stop gs' ts q rest) : Scans p gs (t :: ts) q rest := by
  obtain ⟨rfl, rfl⟩ := Prod.ext_iff.mp h
  exact .cons inner tail

/-- Every token takes at least one character. -/
theorem length_le (h : Scans p gs ts q rest) : ts.length + rest.length ≤ gs.length := by
  induction h with
  | nil => exact Nat.le_of_eq (Nat.zero_add _)
  | cons inner _ ih =>
    have hlt := (next_rest inner).2
    rw [length_cons]
    omega

/-- The tokens of a stretch do not depend on what follows. -/
theorem replace {rest' : List Glyph} (h : Scans p gs ts q rest) (hcloses : Closes rest rest') :
    ∃ used, gs = used ++ rest ∧
      ∀ p', ∃ ts' q', Scans p' (used ++ rest') ts' q' rest' ∧ Alike ts ts' := by
  induction h with
  | nil p gs => exact ⟨[], rfl, fun p' => ⟨[], p', .nil p' rest', rfl⟩⟩
  | @cons p q gs rest ts inner _ ih =>
    obtain ⟨used', hused', htail⟩ := ih hcloses
    obtain ⟨skipped, used, hgs, -, hnext⟩ := next_replace inner
    refine ⟨skipped ++ (used ++ used'), ?_, fun p' => ?_⟩
    · conv_lhs => rw [hgs, hused']
      simp only [append_assoc]
    · rw [hused'] at hnext
      obtain ⟨⟨pos, hpos⟩, -⟩ := hnext p' (used' ++ rest') (hcloses.append used')
      obtain ⟨ts', q', hscans, halike⟩ := htail (Token.stop ⟨_, _, pos⟩)
      refine ⟨_, q', ?_, halike.cons _ pos⟩
      simp only [append_assoc]
      exact of_next hpos inner hscans

/-- The tokens of a stretch are those of the excerpt of the text with a semicolon behind it. -/
theorem excerpt {src : Text} {done : List Glyph} (h : Scans p gs (t :: ts) q rest)
    (hreading : Reading src done gs p) (hparted : Parted done gs) :
    ∃ us u v, scan ((src.take q.offset).drop t.pos.offset ++ [59]) = us ++ [u] ++ [v] ∧
      Alike (t :: ts) us ∧ u.kind = .semicolon ∧ v.kind = .eof := by
  obtain ⟨whole, hwhole, hend, -⟩ := h.reading hreading hparted
  cases h with
  | cons inner tail =>
    obtain ⟨skipped, used, hgs, hpos, hnext⟩ := next_replace inner
    have hcloses : Closes rest [⟨59, [59]⟩] := .inr ⟨_, rfl, rfl⟩
    obtain ⟨used', hused', htail⟩ := tail.replace hcloses
    have hstart : Reading src (done ++ skipped) (used ++ (next p gs).2) (next p gs).1.pos := by
      rw [hpos fun g hg => hreading.genuine g (mem_append_right _ hg)]
      exact Reading.pass (hgs ▸ hreading)
    -- The excerpt consists of the characters of the tokens and those between them.
    have hexcerpt : (src.take q.offset).drop (next p gs).1.pos.offset =
        Text.ofGlyphs (used ++ used') := by
      have hsame : done ++ whole = done ++ skipped ++ (used ++ used') := by
        have hchars : whole ++ rest = skipped ++ (used ++ used') ++ rest := by
          rw [← hwhole, append_assoc, append_assoc, ← hused']
          exact hgs
        rw [append_cancel_right hchars, append_assoc]
      exact (hstart.between (hsame ▸ hend)).2
    have hglyphs : (Text.ofGlyphs (used ++ used') ++ [59]).glyphs =
        used ++ (used' ++ [⟨59, [59]⟩]) := by
      rw [Text.glyphs_concat (by decide), Text.glyphs_ofGlyphs (t := src), append_assoc]
      · rfl
      · refine ⟨done ++ skipped, rest, ?_⟩
        rw [hstart.glyphs, hused']
        simp only [append_assoc]
    rw [hused'] at hnext
    have hfirst := (hnext .start _ (hcloses.append used')).2
    obtain ⟨us, q', hscans, halike⟩ := htail (Token.stop ⟨_, _, .start⟩)
    have hall := of_next hfirst inner hscans
    obtain ⟨fuel, hfuel⟩ := Nat.le.dest hall.length_le
    refine ⟨_, ⟨.semicolon, [59], q'⟩, ⟨.eof, [], (q'.forward 1)⟩, ?_,
      halike.cons _ .start, rfl, rfl⟩
    rw [scan, hexcerpt, hglyphs, ← hfuel, length_singleton, Nat.add_assoc, Nat.add_assoc,
      hall.scanFor_eq, append_assoc, ← Nat.add_assoc, Nat.add_comm 1 fuel, scanFor_succ]
    rfl

end Scans

end Token

end Foolscap
