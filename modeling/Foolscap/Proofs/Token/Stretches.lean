import Foolscap.Proofs.Token.Lossless

/-!
# Stretches of tokens

The tokens of a text between two places, and what the lexer has in front of it at both.  The end of
a token is a place of the text like its start, so whatever goes from a token to a token starts and
ends at places of the text.
-/

namespace Foolscap

open List

namespace Token

/-- The lexer gets from one place and the input there over some tokens to another place, and none of
the tokens is a last one. -/
inductive Scans : Position → List Glyph → List Token → Position → List Glyph → Prop where
  | nil (p : Position) (gs : List Glyph) : Scans p gs [] p gs
  | cons {p q : Position} {gs rest : List Glyph} {ts : List Token}
      (inner : (next p gs).1.kind.isLast = false)
      (tail : Scans (next p gs).1.stop (next p gs).2 ts q rest) :
      Scans p gs ((next p gs).1 :: ts) q rest

namespace Scans

variable {p q : Position} {gs rest : List Glyph} {ts us : List Token}

/-- A stretch can be cut anywhere. -/
theorem split (h : Scans p gs (ts ++ us) q rest) :
    ∃ q' gs', Scans p gs ts q' gs' ∧ Scans q' gs' us q rest := by
  induction ts generalizing p gs with
  | nil => exact ⟨p, gs, .nil p gs, h⟩
  | cons t ts ih =>
    cases h with
    | cons inner tail =>
      obtain ⟨q', gs', hleft, hright⟩ := ih tail
      exact ⟨q', gs', .cons inner hleft, hright⟩

/-- A stretch ends where its last token does. -/
theorem stop_eq {t : Token} (h : Scans p gs (ts ++ [t]) q rest) : q = t.stop := by
  obtain ⟨_, _, -, hlast⟩ := h.split
  cases hlast with
  | cons _ tail =>
    cases tail
    rfl

theorem suffix (h : Scans p gs ts q rest) : rest <:+ gs := by
  induction h with
  | nil => exact suffix_rfl
  | cons inner _ ih => exact ih.trans (next_rest inner).1

/-- Where the lexer is after a stretch. -/
theorem reading {src : Text} {done : List Glyph} (h : Scans p gs ts q rest)
    (hreading : Reading src done gs p) (hparted : Parted done gs) :
    ∃ used, gs = used ++ rest ∧ Reading src (done ++ used) rest q ∧ Parted (done ++ used) rest := by
  have hread : ∃ done', Reading src done' rest q ∧ Parted done' rest := by
    induction h generalizing done with
    | nil => exact ⟨done, hreading, hparted⟩
    | cons inner _ ih =>
      obtain ⟨done', hreading', hparted'⟩ := (fits_next hreading hparted).2 inner
      exact ih hreading' hparted'
  obtain ⟨done', hreading', hparted'⟩ := hread
  obtain ⟨used, rfl⟩ := h.suffix
  have hglyphs : done ++ used ++ rest = done' ++ rest := by
    rw [← hreading'.glyphs, hreading.glyphs, append_assoc]
  obtain rfl := append_cancel_right hglyphs
  exact ⟨used, rfl, hreading', hparted'⟩

/-- The tokens of some input are those of a stretch and those behind it. -/
theorem scanFor_eq (h : Scans p gs ts q rest) (fuel : Nat) :
    scanFor (ts.length + fuel) p gs = ts ++ scanFor fuel q rest := by
  induction h with
  | nil => rw [length_nil, Nat.zero_add, nil_append]
  | cons inner _ ih =>
    rw [length_cons, Nat.add_right_comm, scanFor_succ, if_neg (Bool.eq_false_iff.mp inner), ih,
      cons_append]

end Scans

/-- Tokens that are not the last one are a stretch. -/
theorem scans_scanFor {fuel : Nat} {p : Position} {gs : List Glyph} {ts back : List Token}
    (h : scanFor fuel p gs = ts ++ back) (hts : ∀ t ∈ ts, t.kind.isLast = false) :
    ∃ q rest, Scans p gs ts q rest := by
  induction ts generalizing fuel p gs with
  | nil => exact ⟨p, gs, .nil p gs⟩
  | cons t ts ih =>
    cases fuel with
    | zero => cases h
    | succ fuel =>
      obtain ⟨ht, htail⟩ := forall_mem_cons.mp hts
      rw [scanFor_succ] at h
      split at h
      · next hlast =>
        obtain ⟨rfl, -⟩ := List.cons.inj h
        rw [ht] at hlast
        cases hlast
      · obtain ⟨rfl, hback⟩ := List.cons.inj h
        obtain ⟨q, rest, hscans⟩ := ih hback htail
        exact ⟨q, rest, .cons ht hscans⟩

/-! ### The tokens of a text -/

section

variable {src : Text} {ts : List Token} {last : Token}

/-- Only the last token of a text is a last one. -/
theorem inner_of_scan (h : scan src = ts ++ [last]) : ∀ t ∈ ts, t.kind.isLast = false := by
  have hinner := (legible_scan src).inner
  rwa [h, dropLast_concat] at hinner

/-- Every stretch of the tokens of a text is one that the lexer gets over. -/
theorem exists_scans {front own back : List Token}
    (h : scan src = front ++ (own ++ back) ++ [last]) :
    ∃ done used rest p q, Reading src done (used ++ rest) p ∧ Parted done (used ++ rest) ∧
      Scans p (used ++ rest) own q rest ∧ Reading src (done ++ used) rest q ∧
      Parted (done ++ used) rest := by
  obtain ⟨q, rest, hscans⟩ := scans_scanFor h (inner_of_scan h)
  obtain ⟨p₁, gs₁, hfront, hscans⟩ := hscans.split
  obtain ⟨p₂, gs₂, hown, -⟩ := hscans.split
  obtain ⟨done, -, hreading, hparted⟩ := hfront.reading (.start src) (.nil _)
  obtain ⟨used, rfl, hreading', hparted'⟩ := hown.reading hreading hparted
  exact ⟨_, used, gs₂, p₁, p₂, hreading, hparted, hown, hreading', hparted'⟩

theorem fits_of_mem (h : scan src = ts ++ [last]) {t : Token} (ht : t ∈ ts) :
    ∃ start, t.Fits src start := by
  obtain ⟨front, back, rfl⟩ := append_of_mem ht
  have hts : scan src = front ++ t :: (back ++ [last]) := by
    rw [h, append_assoc, cons_append]
  exact ⟨_, fits_scanFor (.start src) (.nil _) hts⟩

/-- The end of a token is a place of the text. -/
theorem stop_at (h : scan src = ts ++ [last]) {t : Token} (ht : t ∈ ts) : t.stop.At src := by
  obtain ⟨front, back, rfl⟩ := append_of_mem ht
  have hts : scan src = front ++ ([t] ++ back) ++ [last] := h
  obtain ⟨_, _, _, _, q, -, -, hscans, hreading, -⟩ := exists_scans hts
  obtain rfl : q = t.stop := (show Scans _ _ ([] ++ [t]) q _ from hscans).stop_eq
  exact hreading.placed

end

end Token

end Foolscap
