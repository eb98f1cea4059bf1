import Foolscap.Proofs.Token.Gaps

/-!
# Lexing loses nothing

The tokens of a text stand in it in their order, with nothing but blanks and comments between them,
and each of them knows its line and its column.
-/

namespace Foolscap

open List TokenKind Glyph

/-- A place where the input ends: behind the last byte, or in front of a byte 0. -/
def Text.EndsAt (src : Text) (offset : Nat) : Prop := offset = src.length ∨ src[offset]? = some 0

namespace Token

/-- The literal of a token stands at its place and is a run of characters, and neither the character
in front of it nor the one behind it belongs to the run. -/
def IsRun (src : Text) (t : Token) (starts goesOn : Glyph → Bool) : Prop :=
  ∃ before g run after, src.glyphs = before ++ (g :: run ++ after) ∧
    Text.ofGlyphs before = src.take t.pos.offset ∧ t.literal = Text.ofGlyphs (g :: run) ∧
    starts g ∧ (∀ h ∈ run, goesOn h) ∧
    (∀ h ∈ before.getLast?, starts h = false) ∧ ∀ h ∈ after.head?, goesOn h = false

/-- A character that no token starts with stands at the place of a token, and the token says so. -/
def IsStray (src : Text) (t : Token) : Prop :=
  ∃ before g after, src.glyphs = before ++ g :: after ∧
    Text.ofGlyphs before = src.take t.pos.offset ∧
    t.literal = "unexpected character: " ++ Text.ofCode g.code ∧ g.code ≠ 0 ∧
    g.isSeparator = false ∧ g.isDigit = false ∧ g.isWordStart = false

/-- What may stand in front of a token: blanks and comments.  In front of the end a line comment may
be open, and in front of an error a block comment, which then goes on to the end. -/
def Separated (src : Text) (t : Token) (gap : Text) : Prop :=
  match t.kind with
  | .eof => Filler .blank gap ∨ Filler .lineComment gap
  | .error => Filler .blank gap ∧ t.IsStray src ∨
      Filler .blockComment gap ∧ src.EndsAt t.pos.offset
  | _ => Filler .blank gap

/-- A token of a text is right, given where the one before it ends. -/
structure Fits (src : Text) (start : Nat) (t : Token) : Prop where
  start_le : start ≤ t.pos.offset
  placed : t.pos.At src
  separated : t.Separated src ((src.take t.pos.offset).drop start)
  literal : t.kind.isLast = false → t.literal ≠ [] ∧ t.literal <+: src.drop t.pos.offset
  number : t.kind = .integer → t.IsRun src Glyph.isDigit Glyph.isDigit
  word : t.kind = .identifier ∨ t.kind ∈ TokenKind.reserved →
    t.IsRun src Glyph.isWordStart Glyph.isWordPart
  ending : t.kind = .eof → src.EndsAt t.pos.offset

/-! ### What a character starts -/

/-- The codes of the characters that operators and delimiters consist of. -/
def signs : List Nat := [40, 41, 123, 125, 44, 59, 58, 46, 43, 45, 42, 47, 33, 61, 60, 62, 38, 124]

theorem single?_mem {code : Nat} {k : TokenKind} (h : single? code = some k) :
    code ∈ signs ∧ k.isLast = false ∧ k ≠ .integer ∧ k ≠ .identifier ∧ k ∉ reserved := by
  unfold single? at h
  split at h <;> cases h <;> decide

theorem double?_mem {code second : Nat} {k : TokenKind} (h : double? code = some (second, k)) :
    code ∈ signs ∧ second ∈ signs ∧
      k.isLast = false ∧ k ≠ .integer ∧ k ≠ .identifier ∧ k ∉ reserved := by
  unfold double? at h
  split at h <;> cases h <;> decide

theorem not_of_mem_signs {g : Glyph} (h : g.code ∈ signs) :
    g.isDigit = false ∧ g.isWordStart = false ∧ g.code ≠ 10 := by
  unfold isDigit isWordStart
  revert h
  generalize g.code = code
  revert code
  decide

theorem not_isWordStart_of_isDigit {g : Glyph} (h : g.isDigit) : g.isWordStart = false := by
  simp only [isDigit, Bool.and_eq_true, decide_eq_true_eq] at h
  unfold isWordStart
  revert h
  generalize g.code = code
  rintro ⟨hlo, hhi⟩
  have hcodes : ∀ code, code < 58 → 48 ≤ code → (code = 95 || Letter.isLetter code) = false := by
    decide
  exact hcodes code (Nat.lt_succ_of_le hhi) hlo

/-- What a character and the input behind it become: a number, a word, an operator or delimiter, or
an error; and the input left. -/
inductive Lexed (g : Glyph) (gs : List Glyph) (t : Token) (rest : List Glyph) : Prop where
  | number (run : List Glyph) (hgs : gs = run ++ rest)
      (hliteral : t.literal = Text.ofGlyphs (g :: run)) (hkind : t.kind = .integer)
      (hg : g.isDigit) (hrun : ∀ h ∈ run, h.isDigit) (hend : ∀ h ∈ rest.head?, h.isDigit = false)
  | word (run : List Glyph) (hgs : gs = run ++ rest)
      (hliteral : t.literal = Text.ofGlyphs (g :: run))
      (hkind : t.kind = TokenKind.ofWord t.literal)
      (hg : g.isWordStart) (hrun : ∀ h ∈ run, h.isWordPart)
      (hend : ∀ h ∈ rest.head?, h.isWordPart = false)
  | sign (run : List Glyph) (hgs : gs = run ++ rest)
      (hliteral : t.literal = Text.ofGlyphs (g :: run))
      (hkind : t.kind.isLast = false ∧ t.kind ≠ .integer ∧ t.kind ≠ .identifier ∧
        t.kind ∉ TokenKind.reserved)
      (hsigns : ∀ h ∈ g :: run, h.code ∈ signs)
  | stray (hkind : t.kind = .error)
      (hliteral : t.literal = "unexpected character: " ++ Text.ofCode g.code)
      (hdigit : g.isDigit = false) (hword : g.isWordStart = false)

theorem ofWord_mem (w : Text) : ofWord w = .identifier ∨ ofWord w ∈ reserved := by
  unfold ofWord
  cases h : reserved.find? fun k => k.name == w with
  | none => exact .inl rfl
  | some k => exact .inr (mem_of_find?_eq_some h)

/-- The longest run of characters with a property is a run, and the next character does not have the
property. -/
theorem run_spec (f : Glyph → Bool) (gs : List Glyph) :
    gs = gs.takeWhile f ++ gs.dropWhile f ∧ (∀ h ∈ gs.takeWhile f, f h) ∧
      ∀ h ∈ (gs.dropWhile f).head?, f h = false := by
  refine ⟨takeWhile_append_dropWhile.symm, ?_, ?_⟩
  · exact all_eq_true.mp all_takeWhile
  · intro h hh
    have hnot := List.head?_dropWhile_not f gs
    rw [Option.mem_def] at hh
    rw [hh] at hnot
    exact hnot

/-- What the lexer reads from one character on is a lexeme by the rules, and starts there.  The
rules are those of the language, said without the order in which the lexer tries them. -/
theorem lexed_lexeme (p : Position) (g : Glyph) (gs : List Glyph) :
    Lexed g gs (lexeme p g gs).1 (lexeme p g gs).2 ∧ (lexeme p g gs).1.pos = p := by
  unfold lexeme
  dsimp only
  cases hsingle : single? g.code with
  | some k =>
    obtain ⟨hsign, hkind⟩ := single?_mem hsingle
    refine ⟨.sign [] rfl (append_nil _).symm hkind ?_, rfl⟩
    intro h hh
    rwa [mem_singleton.mp hh]
  | none =>
    cases hdouble : double? g.code with
    | some d =>
      obtain ⟨second, k⟩ := d
      obtain ⟨hsign, hsecond, hkind⟩ := double?_mem hdouble
      obtain ⟨hdigit, hword, -⟩ := not_of_mem_signs hsign
      dsimp only
      split
      · next hstarts =>
        cases gs with
        | nil => cases hstarts
        | cons h gs =>
          have hcode : h.code = second := of_decide_eq_true hstarts
          refine ⟨.sign [h] rfl rfl hkind ?_, rfl⟩
          intro h' hh'
          rcases mem_cons.mp hh' with rfl | hh'
          · exact hsign
          · rw [mem_singleton.mp hh', hcode]
            exact hsecond
      split
      · have hassign : assign.isLast = false ∧ assign ≠ .integer ∧
            assign ≠ .identifier ∧ assign ∉ reserved := by decide
        refine ⟨.sign [] rfl (append_nil _).symm hassign ?_, rfl⟩
        intro h hh
        rwa [mem_singleton.mp hh]
      · exact ⟨.stray rfl rfl hdigit hword, rfl⟩
    | none =>
      dsimp only
      split
      · next hdigit =>
        obtain ⟨hgs, hrun, hend⟩ := run_spec isDigit gs
        exact ⟨.number _ hgs rfl rfl hdigit hrun hend, rfl⟩
      split
      · next hword =>
        obtain ⟨hgs, hrun, hend⟩ := run_spec isWordPart gs
        exact ⟨.word _ hgs rfl rfl hword hrun hend, rfl⟩
      · next hdigit hword =>
        exact ⟨.stray rfl rfl (Bool.eq_false_iff.mpr hdigit) (Bool.eq_false_iff.mpr hword), rfl⟩

/-! ### Where the lexer is -/

/-- The lexer has read some characters of a text and has others ahead of it. -/
structure Reading (src : Text) (done gs : List Glyph) (p : Position) : Prop where
  glyphs : src.glyphs = done ++ gs
  pos : p = Position.start.advance (Text.ofGlyphs done)

namespace Reading

variable {src : Text} {done gs rest skipped : List Glyph} {p q : Position}

theorem start (src : Text) : Reading src [] src.glyphs Position.start := ⟨rfl, rfl⟩

section

variable (h : Reading src done gs p)

include h

theorem src_eq : src = Text.ofGlyphs done ++ Text.ofGlyphs gs := by
  rw [← Text.bytes_glyphs src, h.glyphs]
  exact flatMap_append

theorem offset_eq : p.offset = (Text.ofGlyphs done).length := by
  rw [h.pos, Position.advance_offset]
  exact Nat.zero_add _

theorem take_eq : src.take p.offset = Text.ofGlyphs done := by
  rw [h.offset_eq, h.src_eq, take_left]

theorem drop_eq : src.drop p.offset = Text.ofGlyphs gs := by
  rw [h.offset_eq, h.src_eq, drop_left]

theorem placed : p.At src := by
  rw [h.pos, h.src_eq]
  exact Position.at_advance _ _

theorem genuine : ∀ g ∈ done ++ gs, g.Genuine := by
  rw [← h.glyphs]
  exact fun g => Text.genuine_of_mem_glyphs

end

/-- The lexer goes on. -/
theorem pass (h : Reading src done (skipped ++ rest) p) :
    Reading src (done ++ skipped) rest (p.advance (Text.ofGlyphs skipped)) := by
  refine ⟨?_, ?_⟩
  · rw [h.glyphs, append_assoc]
  · rw [h.pos, ← Position.advance_append]
    exact congrArg _ flatMap_append.symm

/-- What is between the place where the lexer was and the one where it is. -/
theorem between (h : Reading src done gs p) (h' : Reading src (done ++ skipped) rest q) :
    p.offset ≤ q.offset ∧ (src.take q.offset).drop p.offset = Text.ofGlyphs skipped := by
  have hbytes : Text.ofGlyphs (done ++ skipped) = Text.ofGlyphs done ++ Text.ofGlyphs skipped :=
    flatMap_append
  constructor
  · rw [h.offset_eq, h'.offset_eq, hbytes, length_append]
    exact Nat.le_add_right _ _
  · rw [h'.take_eq, h.offset_eq, hbytes, drop_left]

/-- Where the input ends, the text does, or there is a byte 0. -/
theorem endsAt (h : Reading src done gs p) (hend : AtEnd gs) : src.EndsAt p.offset := by
  cases gs with
  | nil =>
    left
    rw [h.offset_eq, h.src_eq]
    exact congrArg List.length (append_nil _).symm
  | cons g gs =>
    right
    have hg : g.Genuine := h.genuine g (by simp)
    have hdrop := h.drop_eq
    rw [Text.ofGlyphs_cons, hg.bytes_eq (b := 0) (by decide) (hend g rfl)] at hdrop
    rw [← Nat.add_zero p.offset, ← List.getElem?_drop, hdrop]
    rfl

end Reading

/-- The last character read and the next one are not of the same run. -/
def Parted (done gs : List Glyph) : Prop :=
  ∀ g ∈ done.getLast?, ∀ h ∈ gs.head?,
    ¬ (g.isWordStart ∧ h.isWordStart) ∧ ¬ (g.isDigit ∧ h.isDigit)

namespace Parted

variable {done gs rest run skipped : List Glyph} {g : Glyph}

theorem nil (gs : List Glyph) : Parted [] gs := nofun

theorem getLast?_append_cons (done run : List Glyph) (g : Glyph) :
    ∃ h ∈ g :: run, (done ++ (g :: run)).getLast? = some h := by
  have hne : g :: run ≠ [] := nofun
  refine ⟨(g :: run).getLast hne, getLast_mem hne, ?_⟩
  rw [List.getLast?_append, List.getLast?_eq_some_getLast hne, Option.some_or]

/-- A character that belongs to no run parts the input. -/
theorem of_neither (h : ∀ h ∈ g :: run, h.isDigit = false ∧ h.isWordStart = false) :
    Parted (done ++ (g :: run)) rest := by
  obtain ⟨last, hmem, hlast⟩ := getLast?_append_cons done run g
  intro g' hg'
  obtain rfl : last = g' := Option.some.inj (hlast.symm.trans hg')
  obtain ⟨hdigit, hword⟩ := h last hmem
  simp [hdigit, hword]

theorem number (hg : g.isDigit) (hrun : ∀ h ∈ run, h.isDigit)
    (hend : ∀ h ∈ rest.head?, h.isDigit = false) : Parted (done ++ (g :: run)) rest := by
  obtain ⟨last, hmem, hlast⟩ := getLast?_append_cons done run g
  intro g' hg' h hh
  obtain rfl : last = g' := Option.some.inj (hlast.symm.trans hg')
  have hdigit : last.isDigit := by
    rcases mem_cons.mp hmem with rfl | hmem
    · exact hg
    · exact hrun last hmem
  simp [not_isWordStart_of_isDigit hdigit, hend h hh]

theorem word (hend : ∀ h ∈ rest.head?, h.isWordPart = false) : Parted done rest := by
  intro g' _ h hh
  have hpart := hend h hh
  simp only [isWordPart, Bool.or_eq_false_iff] at hpart
  simp [hpart.1, hpart.2]

/-- What is between two tokens parts the input. -/
theorem pass (h : Parted done (skipped ++ rest)) (hskipped : ∀ g ∈ skipped, g.Genuine)
    (hfill : Filler .blank (Text.ofGlyphs skipped)) : Parted (done ++ skipped) rest := by
  rcases hfill.ends with hnil | ⟨front, c, heq, hc⟩
  · cases skipped with
    | nil => rwa [append_nil]
    | cons g skipped =>
      rw [Text.ofGlyphs_cons, append_eq_nil_iff] at hnil
      exact absurd hnil.1 (hskipped g mem_cons_self).bytes_ne_nil
  · -- The last byte that was skipped is that of the last character.
    obtain ⟨g, hlast, hmem⟩ := Text.exists_last_glyph hskipped (heq ▸ List.getLast?_concat)
    have hcode : g.code = c.toNat := by
      refine ((hskipped g (mem_of_getLast? hlast)).mem_bytes_iff ?_).mp hmem
      rcases hc with rfl | rfl | rfl | rfl | rfl <;> decide
    have hneither : g.isDigit = false ∧ g.isWordStart = false := by
      unfold isDigit isWordStart
      rw [hcode]
      rcases hc with rfl | rfl | rfl | rfl | rfl <;> decide
    intro g' hg'
    rw [List.getLast?_append, hlast] at hg'
    cases hg'
    simp [hneither]

end Parted

/-! ### One token -/

section Next

variable {src : Text} {done gs gs' rest skipped run : List Glyph} {p q : Position} {g : Glyph}
  {t : Token}

/-- The literal of a token that is read stands in the text, and the lexer goes on behind it. -/
theorem Reading.read (h : Reading src done (g :: run ++ rest) p) (hpos : t.pos = p)
    (hliteral : t.literal = Text.ofGlyphs (g :: run)) (hline : ∀ h ∈ g :: run, h.code ≠ 10) :
    (t.literal ≠ [] ∧ t.literal <+: src.drop t.pos.offset) ∧
      Reading src (done ++ (g :: run)) rest t.stop := by
  have hgenuine : ∀ h ∈ g :: run, h.Genuine := fun h' hh' => h.genuine h' (by simp at hh' ⊢; grind)
  refine ⟨⟨?_, ?_⟩, ?_⟩
  · rw [hliteral, Text.ofGlyphs_cons]
    exact fun hnil => (hgenuine g mem_cons_self).bytes_ne_nil (append_eq_nil_iff.mp hnil).1
  · rw [hpos, h.drop_eq, hliteral]
    exact ⟨Text.ofGlyphs rest, flatMap_append.symm⟩
  · have hnone : Text.newline ∉ t.literal := by
      rw [hliteral]
      intro hmem
      obtain ⟨h', hh', hmem⟩ := mem_flatMap.mp hmem
      exact hline h' hh' (((hgenuine h' hh').mem_bytes_iff (by decide)).mp hmem)
    have hstop : t.stop = p.advance (Text.ofGlyphs (g :: run)) := by
      rw [← hliteral, Position.advance_eq_forward hnone, ← hpos]
      rfl
    rw [hstop]
    exact h.pass

/-- A token behind the characters that the lexer has skipped fits if it does so on its own. -/
theorem Fits.of_reading (h : Reading src done gs p) (h' : Reading src (done ++ skipped) rest t.pos)
    (hseparated : t.Separated src (Text.ofGlyphs skipped))
    (hliteral : t.kind.isLast = false → t.literal ≠ [] ∧ t.literal <+: src.drop t.pos.offset)
    (hnumber : t.kind = .integer → t.IsRun src isDigit isDigit)
    (hword : t.kind = .identifier ∨ t.kind ∈ reserved →
      t.IsRun src isWordStart isWordPart)
    (hending : t.kind = .eof → src.EndsAt t.pos.offset) : t.Fits src p.offset := by
  obtain ⟨hle, hbetween⟩ := h.between h'
  exact ⟨hle, h'.placed, hbetween.symm ▸ hseparated, hliteral, hnumber, hword, hending⟩

theorem isLast_of_word (h : t.kind = .identifier ∨ t.kind ∈ reserved) :
    t.kind.isLast = false ∧ t.kind ≠ .integer ∧ t.kind ≠ .eof := by
  revert h
  generalize t.kind = kind
  cases kind <;> decide

/-- The end of the input. -/
theorem fits_eof (h : Reading src done gs p) (h' : Reading src (done ++ skipped) rest q)
    (hfill : Filler .blank (Text.ofGlyphs skipped) ∨ Filler .lineComment (Text.ofGlyphs skipped))
    (hend : AtEnd rest) : Fits src p.offset ⟨.eof, [], q⟩ := by
  refine .of_reading h h' hfill ?_ ?_ ?_ ?_
  · exact nofun
  · exact nofun
  · exact fun hkind => nomatch (isLast_of_word hkind).1
  · exact fun _ => h'.endsAt hend

/-- A block comment that is not closed. -/
theorem fits_unterminated (h : Reading src done gs p) (h' : Reading src (done ++ skipped) rest q)
    (hfill : Filler .blockComment (Text.ofGlyphs skipped)) (hend : AtEnd rest) :
    Fits src p.offset ⟨.error, "unterminated comment", q⟩ := by
  refine .of_reading h h' (.inr ⟨hfill, h'.endsAt hend⟩) ?_ ?_ ?_ ?_
  · exact nofun
  · exact nofun
  · exact fun hkind => nomatch (isLast_of_word hkind).1
  · exact nofun

/-- What stands in front of a token that is not the last one. -/
theorem separated_of_isLast {gap : Text} (hlast : t.kind.isLast = false)
    (hfill : Filler .blank gap) : t.Separated src gap := by
  unfold Separated
  cases hkind : t.kind with
  | eof | error => rw [hkind] at hlast; cases hlast
  | _ => exact hfill

/-- A token that a character starts, and the lexer behind it. -/
theorem fits_lexed (h : Reading src done gs p) (h' : Reading src (done ++ skipped) (g :: gs') t.pos)
    (hparted : Parted (done ++ skipped) (g :: gs'))
    (hfill : Filler .blank (Text.ofGlyphs skipped)) (hnul : g.code ≠ 0)
    (hsep : g.isSeparator = false) (hlexed : Lexed g gs' t rest) :
    t.Fits src p.offset ∧ (t.kind.isLast = false →
      ∃ done', Reading src done' rest t.stop ∧ Parted done' rest) := by
  cases hlexed with
  | number run hgs hliteral hkind hg hrun hend =>
    subst hgs
    have hdigits : ∀ h ∈ g :: run, h.isDigit := forall_mem_cons.mpr ⟨hg, hrun⟩
    have hline : ∀ h ∈ g :: run, h.code ≠ 10 := by
      intro h hh hcode
      have hdigit := hdigits h hh
      rw [isDigit, hcode] at hdigit
      cases hdigit
    obtain ⟨hplaced, hread⟩ := h'.read rfl hliteral hline
    refine ⟨.of_reading h h' (separated_of_isLast (by rw [hkind]; rfl) hfill) ?_ ?_ ?_ ?_, ?_⟩
    · exact fun _ => hplaced
    · intro _
      refine ⟨done ++ skipped, g, run, rest, h'.glyphs, h'.take_eq.symm, hliteral, hg, hrun, ?_,
        hend⟩
      intro b hb
      exact Bool.eq_false_iff.mpr fun hdigit => (hparted b hb g rfl).2 ⟨hdigit, hg⟩
    · exact fun hword => absurd hkind (isLast_of_word hword).2.1
    · intro heof
      cases hkind.symm.trans heof
    · exact fun _ => ⟨_, hread, .number hg hrun hend⟩
  | word run hgs hliteral hkind hg hrun hend =>
    subst hgs
    have hline : ∀ h ∈ g :: run, h.code ≠ 10 := by
      intro h hh hcode
      have hpart : h.isWordPart := by
        rcases mem_cons.mp hh with rfl | hh
        · rw [isWordPart, hg]
          rfl
        · exact hrun h hh
      rw [isWordPart, isWordStart, isDigit, hcode] at hpart
      revert hpart
      decide
    obtain ⟨hlast, hinteger, heof⟩ := isLast_of_word (hkind ▸ ofWord_mem t.literal)
    obtain ⟨hplaced, hread⟩ := h'.read rfl hliteral hline
    refine ⟨.of_reading h h' (separated_of_isLast hlast hfill) ?_ ?_ ?_ ?_, ?_⟩
    · exact fun _ => hplaced
    · exact fun hnumber => absurd hnumber hinteger
    · intro _
      refine ⟨done ++ skipped, g, run, rest, h'.glyphs, h'.take_eq.symm, hliteral, hg, hrun, ?_,
        hend⟩
      intro b hb
      exact Bool.eq_false_iff.mpr fun hstart => (hparted b hb g rfl).1 ⟨hstart, hg⟩
    · exact fun hend => absurd hend heof
    · exact fun _ => ⟨_, hread, .word hend⟩
  | sign run hgs hliteral hkind hsigns =>
    subst hgs
    obtain ⟨hlast, hinteger, hident, hreserved⟩ := hkind
    obtain ⟨hplaced, hread⟩ :=
      h'.read rfl hliteral fun h hh => (not_of_mem_signs (hsigns h hh)).2.2
    refine ⟨.of_reading h h' (separated_of_isLast hlast hfill) ?_ ?_ ?_ ?_, ?_⟩
    · exact fun _ => hplaced
    · exact fun hnumber => absurd hnumber hinteger
    · exact fun hword => absurd hword (not_or.mpr ⟨hident, hreserved⟩)
    · intro heof
      rw [heof] at hlast
      cases hlast
    · refine fun _ => ⟨_, hread, .of_neither fun h hh => ?_⟩
      obtain ⟨hdigit, hword, -⟩ := not_of_mem_signs (hsigns h hh)
      exact ⟨hdigit, hword⟩
  | stray hkind hliteral hdigit hword =>
    have hstray : t.IsStray src :=
      ⟨_, g, gs', h'.glyphs, h'.take_eq.symm, hliteral, hnul, hsep, hdigit, hword⟩
    have hlast : t.kind.isLast := by
      rw [hkind]
      rfl
    refine ⟨.of_reading h h' ?_ ?_ ?_ ?_ ?_, ?_⟩
    · unfold Separated
      rw [hkind]
      exact .inl ⟨hfill, hstray⟩
    · intro h
      cases hlast.symm.trans h
    · intro h
      cases hkind.symm.trans h
    · intro h
      cases hlast.symm.trans (isLast_of_word h).1
    · intro h
      cases hkind.symm.trans h
    · intro h
      cases hlast.symm.trans h

/-- The next token is right, and the lexer can go on behind it. -/
theorem fits_next (h : Reading src done gs p) (hparted : Parted done gs) :
    (next p gs).1.Fits src p.offset ∧ ((next p gs).1.kind.isLast = false →
      ∃ done', Reading src done' (next p gs).2 (next p gs).1.stop ∧
        Parted done' (next p gs).2) := by
  have hgs : ∀ g ∈ gs, g.Genuine := fun g hg => h.genuine g (mem_append_right _ hg)
  have hskip : (skip .blank p gs).Right .blank p gs := skip_right hgs
  unfold next skipBlanks
  cases hs : skip .blank p gs with
  | unterminated q =>
    rw [hs] at hskip
    obtain ⟨rest, ⟨skipped, rfl, rfl, hfill⟩, hend⟩ := hskip
    exact ⟨fits_unterminated h h.pass hfill hend, nofun⟩
  | found q rest =>
    rw [hs] at hskip
    obtain ⟨hsep, hpasses⟩ := hskip
    -- Either the input has ended, or only whole comments were skipped.
    by_cases hend : AtEnd rest
    · have hfits : Fits src p.offset ⟨.eof, [], q⟩ := by
        rcases hpasses with ⟨skipped, rfl, rfl, hfill⟩ | ⟨⟨skipped, rfl, rfl, hfill⟩, -⟩
        · exact fits_eof h h.pass (.inl hfill) hend
        · exact fits_eof h h.pass (.inr hfill) hend
      cases rest with
      | nil => exact ⟨hfits, nofun⟩
      | cons g rest =>
        dsimp only
        rw [if_pos (hend g rfl)]
        exact ⟨hfits, nofun⟩
    · cases rest with
      | nil => exact absurd nofun hend
      | cons g rest =>
        have hnul : g.code ≠ 0 := by
          intro hcode
          refine hend ?_
          rintro _ ⟨⟩
          exact hcode
        obtain ⟨skipped, rfl, rfl, hfill⟩ := hpasses.resolve_right fun hopen => hend hopen.2
        dsimp only
        rw [if_neg hnul]
        obtain ⟨hlexed, hpos⟩ := lexed_lexeme (p.advance (Text.ofGlyphs skipped)) g rest
        refine fits_lexed h ?_ ?_ hfill hnul (hsep g rfl) hlexed
        · rw [hpos]
          exact h.pass
        · exact hparted.pass (fun g hg => hgs g (mem_append_left _ hg)) hfill

end Next

/-! ### All tokens -/

/-- Where some tokens end; a place where they start if there are none. -/
def endOf (start : Nat) (ts : List Token) : Nat :=
  (ts.getLast?.map fun t => t.stop.offset).getD start

theorem endOf_cons (start : Nat) (t : Token) (ts : List Token) :
    endOf start (t :: ts) = endOf t.stop.offset ts := by
  cases ts with
  | nil => rfl
  | cons u ts =>
    unfold endOf
    rw [List.getLast?_cons_cons]
    simp [List.getLast?_cons]

/-- All tokens are right, each behind the one before it. -/
theorem fits_scanFor {src : Text} {fuel : Nat} {done gs : List Glyph} {p : Position}
    (h : Reading src done gs p) (hparted : Parted done gs) {front back : List Token} {t : Token}
    (hts : scanFor fuel p gs = front ++ t :: back) : t.Fits src (endOf p.offset front) := by
  induction fuel generalizing done gs p front with
  | zero => simp [scanFor] at hts
  | succ fuel ih =>
    obtain ⟨hfits, hnext⟩ := fits_next h hparted
    rw [scanFor_succ] at hts
    cases front with
    | nil =>
      have ht : (next p gs).1 = t := by
        split at hts <;> exact (List.cons.inj hts).1
      exact ht ▸ hfits
    | cons u front =>
      split at hts
      · simp at hts
      · next hlast =>
        obtain ⟨rfl, hrest⟩ := List.cons.inj hts
        obtain ⟨done', h', hparted'⟩ := hnext (Bool.eq_false_iff.mpr hlast)
        rw [endOf_cons]
        exact ih h' hparted' hrest

/-- Tokens that are right stand one behind the other, and all of them behind the place where they
start. -/
theorem ordered_of_fits {src : Text} {start : Nat} {ts : List Token}
    (hfits : ∀ front t back, ts = front ++ t :: back → t.Fits src (endOf start front)) :
    (∀ t ∈ ts, start ≤ t.pos.offset) ∧ ts.Pairwise fun t u => t.stop.offset ≤ u.pos.offset := by
  induction ts generalizing start with
  | nil => exact ⟨nofun, .nil⟩
  | cons t ts ih =>
    have ht : start ≤ t.pos.offset := (hfits [] t ts rfl).start_le
    have hstop : t.pos.offset ≤ t.stop.offset := Nat.le_add_right _ _
    have htail : ∀ front u back, ts = front ++ u :: back →
        u.Fits src (endOf t.stop.offset front) := by
      intro front u back hts
      rw [← endOf_cons start]
      exact hfits (t :: front) u back (by rw [hts]; rfl)
    obtain ⟨hbehind, hpairwise⟩ := ih htail
    refine ⟨forall_mem_cons.mpr ⟨ht, fun u hu => ?_⟩, .cons hbehind hpairwise⟩
    exact Nat.le_trans ht (Nat.le_trans hstop (hbehind u hu))

/-- **Lexing is lossless.**  A text of so many bytes has at most one token more than bytes.  The
last one, and no other, is the end of the input or an error.  Their literals do not overlap and
stand in their order, and each token fits behind the one before it: only blanks and comments are
skipped, the literal is what the text has at the place of the token, numbers and words are runs
that cannot be made longer, the input has ended where the last token says so, and line and column
are those of the place. -/
theorem scan_lossless (src : Text) :
    (scan src).length ≤ src.length + 1 ∧
    (∃ front last, scan src = front ++ [last] ∧ last.kind.isLast ∧
      ∀ t ∈ front, t.kind.isLast = false) ∧
    (scan src).Pairwise (fun t u => t.stop.offset ≤ u.pos.offset) ∧
    ∀ front t back, scan src = front ++ t :: back → t.Fits src (endOf 0 front) := by
  have hfits : ∀ front t back, scan src = front ++ t :: back → t.Fits src (endOf 0 front) :=
    fun front t back hts => fits_scanFor (.start src) (.nil _) hts
  obtain ⟨⟨front, last, hts, hlast⟩, -⟩ := closed_scan src
  refine ⟨length_scan_le src, ⟨front, last, hts, hlast, ?_⟩, (ordered_of_fits hfits).2, hfits⟩
  have hinner := (legible_scan src).inner
  rwa [hts, List.dropLast_concat] at hinner

/-- A word, a line comment with a byte that is no character, a number and a word without anything
between them, and a block comment that meets a byte 0. -/
def gluedText : Text := [97, 47, 47, 255, 10, 49, 98, 47, 42, 0]

/-- The second word starts in the middle of a run of characters that can go on in a word, but the
number takes the digit in front of it. -/
theorem scan_lossless_glued :
    ∃ front t back, scan gluedText = front ++ t :: back ∧ endOf 0 front = 6 ∧
      t = ⟨.identifier, "b", ⟨6, 2, 2⟩⟩ ∧ t.Fits gluedText 6 ∧
      back = [⟨.error, "unterminated comment", ⟨9, 2, 5⟩⟩] := by
  have hscan : scan gluedText =
      [⟨.identifier, "a", ⟨0, 1, 1⟩⟩, ⟨.integer, "1", ⟨5, 2, 1⟩⟩] ++
        ⟨.identifier, "b", ⟨6, 2, 2⟩⟩ :: [⟨.error, "unterminated comment", ⟨9, 2, 5⟩⟩] := by
    decide +kernel
  exact ⟨_, _, _, hscan, rfl, rfl, (scan_lossless gluedText).2.2.2 _ _ _ hscan, rfl⟩

end Token

end Foolscap
