import Foolscap.Editor.Place
import Foolscap.Proofs.Tree.Recognized
import Foolscap.Proofs.Token.Stretches

/-!
# What is beside a name

In a program no name and no number stands right behind another one, so beside a name there are
blanks, comments, signs and reserved words only.  Since a reserved word would run into the name,
the bytes beside the name belong to no word.
-/

namespace Foolscap

open Grammar List

namespace Token

/-- Whether a token is a name or a number, and its literal is not told by its kind. -/
def isValue (t : Token) : Bool := t.kind = .identifier || t.kind = .integer

/-- No name or number stands right behind another one, given whether there is one in front. -/
def Seam : Bool → List Token → Prop
  | _, [] => True
  | behind, t :: ts => ¬ (behind ∧ t.isValue) ∧ Seam t.isValue ts

theorem Seam.next {behind : Bool} {front back : List Token} {t u : Token}
    (h : Seam behind (front ++ t :: u :: back)) : ¬ (t.isValue ∧ u.isValue) := by
  induction front generalizing behind with
  | nil => exact h.2.1
  | cons _ _ ih => exact ih h.2

/-- Tokens can stand in front of whatever can stand behind a name, or behind something else. -/
def Joins (behind : Bool) (ts : List Token) (after : Bool) : Prop :=
  ∀ us, Seam after us → Seam behind (ts ++ us)

namespace Joins

variable {a b c : Bool} {ts us : List Token}

theorem nil (a : Bool) : Joins a [] a := fun _ => id

theorem append (h : Joins a ts b) (h' : Joins b us c) : Joins a (ts ++ us) c := by
  intro vs hvs
  rw [append_assoc]
  exact h _ (h' vs hvs)

/-- Less can stand behind a name. -/
theorem any (h : Joins a ts false) : Joins a ts b := by
  intro us hus
  refine h us ?_
  cases us with
  | nil => trivial
  | cons u us => exact ⟨nofun, hus.2⟩

end Joins

end Token

open Token (Joins)

namespace Grammar

variable {ts : List Token} {behind : Bool}

theorem Mark.joins {k : TokenKind} (h : Mark k ts)
    (hk : k ≠ .identifier ∧ k ≠ .integer := by decide) : Joins behind ts false := by
  obtain ⟨t, rfl, rfl⟩ := h
  have hvalue : t.isValue = false := by simp [Token.isValue, hk]
  intro us hus
  simpa [Token.Seam, hvalue] using hus

theorem joins_value {k : TokenKind} (h : Mark k ts) (hk : k = .identifier ∨ k = .integer) :
    Joins false ts true := by
  obtain ⟨t, rfl, rfl⟩ := h
  have hvalue : t.isValue := by simpa [Token.isValue] using hk
  exact fun us hus => ⟨nofun, hvalue ▸ hus⟩

theorem Name.joins {name : Text} (h : Name name ts) : Joins false ts true :=
  joins_value h.mark (.inl rfl)

theorem Numeral.joins {n : Nat} (h : Numeral n ts) : Joins false ts true :=
  joins_value h.mark (.inr rfl)

theorem joins_operator {level : Nat} {k : TokenKind} {op : BinaryOp}
    (h : (k, op) ∈ operators level) (hmark : Mark k ts) : Joins behind ts false := by
  have hop := (Parser.mem_operators_iff.mp h).1
  refine hmark.joins ⟨?_, ?_⟩
  · rintro rfl
    cases hop
  · rintro rfl
    cases hop

mutual

theorem ExprOf.joins {level : Nat} {ts : List Token} {e : Phrase} :
    ExprOf level ts e → Joins false ts true
  | .operation _ hfirst hrest => hfirst.joins.append hrest.joins
  | .factor h => h.joins

theorem OperandsOf.joins {level : Nat} {ts : List Token} {rest : List (BinaryOp × Phrase)} :
    OperandsOf level ts rest → Joins true ts true
  | .nil => .nil true
  | .cons hop hmark he hrest => (joins_operator hop hmark).append (he.joins.append hrest.joins)

/-- In an operand no name and no number stands right behind another one. -/
theorem FactorOf.joins {ts : List Token} {e : Phrase} : FactorOf ts e → Joins false ts true
  | .not hn h => hn.joins.append h.joins
  | .parens hl h hr => (hl.joins.append (h.joins.append hr.joins)).any
  | .int hn => hn.joins
  | .negative hm hn => hm.joins.append hn.joins
  | .yes h | .no h | .null h => h.joins.any
  | .new hn hi has => (hn.joins.append (hi.joins.append (joins_args has))).any
  | .cond hi hc ht htl hy htr he hel hn her =>
    (hi.joins.append (hc.joins.append (ht.joins.append (htl.joins.append (hy.joins.append
      (htr.joins.append (he.joins.append (hel.joins.append (hn.joins.append her.joins))))))))).any
  | .print hp hl h hr => (hp.joins.append (hl.joins.append (h.joins.append hr.joins))).any
  | .id hi => hi.joins
  | .call hi has => (hi.joins.append (joins_args has)).any
  | .send hi hd hm has => (hi.joins.append (hd.joins.append (hm.joins.append (joins_args has)))).any

theorem joins_args {ts : List Token} {as : List Phrase} {behind : Bool} :
    Enclosed (ExprOf 0) ts as → Joins behind ts false
  | .none hl hr => hl.joins.append hr.joins
  | .some hl has hr => hl.joins.append ((joins_someArgs has).append hr.joins)

theorem joins_someArgs {ts : List Token} {as : List Phrase} :
    Separated (ExprOf 0) ts as → Joins false ts true
  | .one h => h.joins
  | .more h hc has => h.joins.append (hc.joins.append (joins_someArgs has))

end

theorem TypeOf.joins {ty : Ty} (h : TypeOf ts ty) : Joins false ts true := by
  cases h with
  | int h | bool h => exact h.joins.any
  | ref h => exact h.joins

theorem joins_params {ps : List (Text × Ty)} (h : Enclosed ParamOf ts ps) :
    Joins behind ts false := by
  have hparam : ∀ {ts p}, ParamOf ts p → Joins false ts true := by
    rintro _ _ ⟨hi, hc, hty⟩
    exact hi.joins.append (hc.joins.append hty.joins)
  have hparams : ∀ {ts ps}, Separated ParamOf ts ps → Joins false ts true := by
    intro ts ps h
    induction h with
    | one h => exact hparam h
    | more h hc _ ih => exact (hparam h).append (hc.joins.append ih)
  cases h with
  | none hl hr => exact hl.joins.append hr.joins
  | some hl hps hr => exact hl.joins.append ((hparams hps).append hr.joins)

theorem Many.joins {α : Type} {P : List Token → α → Prop}
    (hP : ∀ {ts a}, P ts a → Joins false ts false) {as : List α} (h : Many P ts as) :
    Joins false ts false := by
  induction h with
  | nil => exact .nil false
  | cons ha _ ih => exact (hP ha).append ih

mutual

theorem DeclOf.joins {ts : List Token} {d : Clause} : DeclOf ts d → Joins false ts false
  | .var hv hi hc hty ha hvalue hs =>
    hv.joins.append (hi.joins.append (hc.joins.append (hty.joins.append (ha.joins.append
      (hvalue.joins.append hs.joins)))))
  | .fn h => h.joins

theorem RoutineOf.joins {ts : List Token} {d : Clause} : RoutineOf ts d → Joins false ts false
  | .mk hf hi hc hret hps hls hbody hs =>
    hf.joins.append (hi.joins.append (hc.joins.append (hret.joins.append ((joins_params hps).append
      (hls.joins.append (hbody.joins.append hs.joins))))))

theorem LocalsOf.joins {ts : List Token} {ds : List Clause} :
    LocalsOf ts ds → Joins false ts false
  | .none => .nil false
  | .some hl hds _ hi => hl.joins.append ((joins_decls hds).append hi.joins)

theorem joins_decls {ts : List Token} {ds : List Clause} : Many DeclOf ts ds → Joins false ts false
  | .nil => .nil false
  | .cons hd hds => hd.joins.append (joins_decls hds)

end

theorem SuperOf.joins {super : Option Text} : SuperOf ts super → Joins true ts true
  | .none => .nil true
  | .some he hi => he.joins.append hi.joins

theorem ClassOf.joins {d : Clause} (h : ClassOf ts d) : Joins false ts false := by
  obtain ⟨hc, hi, hes, hps, hl, hms, hr⟩ := h
  exact hc.joins.append (hi.joins.append (hes.joins.append ((joins_params hps).append
    (hl.joins.append ((hms.joins RoutineOf.joins).append hr.joins)))))

theorem GlobalsOf.joins {cs ds : List Clause} : GlobalsOf ts cs ds → Joins false ts false
  | .none => .nil false
  | .some hl hcs hds _ hi =>
    hl.joins.append ((hcs.joins ClassOf.joins).append ((joins_decls hds).append hi.joins))

/-- In a program no name or number stands right behind another one, nor at the end. -/
theorem ScriptOf.joins {s : Script} (h : ScriptOf ts s) : Joins false ts false := by
  obtain ⟨hgs, hbody, hs⟩ := h
  exact hgs.joins.append (hbody.joins.append hs.joins)

end Grammar

/-! ### The bytes beside a name -/

/-- A byte that is a character of its own and no digit. -/
def Text.isFirm (b : UInt8) : Bool := b < 128 && !isDigitByte b

namespace Token

variable {src : Text} {ts front back : List Token} {t last : Token} {b : UInt8}

/-- Reserved words and signs consist of characters that are no digits. -/
theorem isFirm_of_not_isValue (h : scan src = ts ++ [last]) (ht : t ∈ ts)
    (hvalue : t.isValue = false) (hb : b ∈ t.literal) : Text.isFirm b := by
  have hinner := inner_of_scan h t ht
  have hmem : t ∈ scan src := h ▸ mem_append_left _ ht
  obtain ⟨p, gs, hgs, rfl⟩ := mem_scanFor hmem
  rcases next_cases p gs with hlast | ⟨q, g, rest, hsuffix, heq⟩
  · rw [hinner] at hlast
    cases hlast
  rw [heq] at hvalue hb hinner
  cases (lexed_lexeme q g rest).1 with
  | number run _ _ hkind => simp [isValue, hkind] at hvalue
  | word run _ _ hkind =>
    -- A word that is no name is a reserved one.
    unfold TokenKind.ofWord at hkind
    cases hfind : TokenKind.reserved.find? fun k => k.name == (lexeme q g rest).1.literal with
    | none => simp [isValue, hkind, hfind] at hvalue
    | some k =>
      have hwords : ∀ k ∈ TokenKind.reserved, ∀ b ∈ k.name, Text.isFirm b := by
        decide +kernel
      have hname : k.name = (lexeme q g rest).1.literal := beq_iff_eq.mp (List.find?_some hfind :)
      exact hwords k (mem_of_find?_eq_some hfind) b (hname ▸ hb)
  | sign run hrest hliteral _ hsigns =>
    rw [hliteral] at hb
    obtain ⟨g', hg', hb⟩ := mem_flatMap.mp hb
    have hcodes : ∀ code ∈ signs, code < 128 ∧ Text.isFirm (UInt8.ofNat code) := by decide
    have hgenuine : g'.Genuine := by
      refine Text.genuine_of_mem_glyphs (hgs.subset (hsuffix.subset ?_))
      rw [hrest, ← cons_append]
      exact mem_append_left _ hg'
    obtain ⟨hsmall, hfirm⟩ := hcodes _ (hsigns g' hg')
    cases hgenuine with
    | ascii =>
      rw [mem_singleton.mp hb]
      rwa [UInt8.ofNat_toNat] at hfirm
    | wide hwide => exact absurd hsmall (Nat.not_lt.mpr hwide)
  | stray hkind =>
    rw [hkind] at hinner
    cases hinner

/-- What is between tokens starts and ends with a character that is no digit. -/
theorem Filler.isFirm {gap : Text} (h : Filler .blank gap)
    (hb : gap.getLast? = some b ∨ gap.head? = some b) : Text.isFirm b := by
  rcases hb with hb | hb
  · rcases h.ends with rfl | ⟨front, c, rfl, hc⟩
    · cases hb
    · rw [List.getLast?_concat] at hb
      cases hb
      rcases hc with rfl | rfl | rfl | rfl | rfl <;> decide
  · cases h with
    | nil => cases hb
    | blank hc =>
      cases hb
      rcases hc with rfl | rfl | rfl | rfl <;> decide
    | line | block => cases hb; decide

variable (h : scan src = ts ++ [last])

include h

/-- A token that is not the last one stands behind a gap. -/
theorem exists_gap (hts : ts = front ++ t :: back) :
    ∃ gap, Filler .blank gap ∧ src.take t.pos.offset = src.take (endOf 0 front) ++ gap ∧
      src.drop (endOf 0 front) = gap ++ src.drop t.pos.offset := by
  have hscan : scan src = front ++ t :: (back ++ [last]) := by rw [h, hts, append_assoc]; rfl
  have hfits : t.Fits src (endOf 0 front) := fits_scanFor (.start src) (.nil _) hscan
  have hinner := inner_of_scan h t (hts ▸ mem_append_right _ mem_cons_self)
  have hseparated := hfits.separated
  have htake : src.take t.pos.offset =
      src.take (endOf 0 front) ++ (src.take t.pos.offset).drop (endOf 0 front) := by
    rw [← Nat.min_eq_left hfits.start_le, ← take_take, Nat.min_eq_left hfits.start_le,
      take_append_drop]
  refine ⟨(src.take t.pos.offset).drop (endOf 0 front), ?_, htake, ?_⟩
  · unfold Separated at hseparated
    split at hseparated
    · next hkind => rw [hkind] at hinner; cases hinner
    · next hkind => rw [hkind] at hinner; cases hinner
    · exact hseparated
  · refine (append_right_inj (src.take (endOf 0 front))).mp ?_
    rw [take_append_drop, ← append_assoc, ← htake, take_append_drop]

/-- The literal of a token stands between its places. -/
theorem literal_of_scan (ht : t ∈ ts) : t.literal ≠ [] ∧
    src.take t.stop.offset = src.take t.pos.offset ++ t.literal ∧
    src.drop t.pos.offset = t.literal ++ src.drop t.stop.offset := by
  obtain ⟨start, hfits⟩ := fits_of_mem h ht
  obtain ⟨hne, rest, hrest⟩ := hfits.literal (inner_of_scan h t ht)
  have hstop : t.stop.offset = t.pos.offset + t.literal.length := rfl
  refine ⟨hne, ?_, ?_⟩
  · rw [hstop, take_add, ← hrest, take_left]
  · rw [hstop, ← drop_drop, ← hrest, drop_left]

/-- The bytes beside a name are characters that are no digits. -/
theorem isFirm_beside (hjoins : Joins false ts false) (ht : t ∈ ts) (hvalue : t.isValue)
    (hb : (src.take t.pos.offset).getLast? = some b ∨ (src.drop t.stop.offset).head? = some b) :
    Text.isFirm b := by
  obtain ⟨front, back, rfl⟩ := append_of_mem ht
  have hend : ∀ front (u : Token), endOf 0 (front ++ [u]) = u.stop.offset := by simp [endOf]
  rcases hb with hb | hb
  · obtain ⟨gap, hgap, htake, -⟩ := exists_gap h rfl
    rw [htake, List.getLast?_append, Option.or_eq_some_iff] at hb
    obtain hb | ⟨-, hb⟩ := hb
    · exact hgap.isFirm (.inl hb)
    obtain rfl | ⟨front, u, rfl⟩ := front.eq_nil_or_concat
    · cases hb
    rw [concat_eq_append] at h hb
    rw [concat_eq_append, append_assoc] at hjoins
    have hu : u ∈ front ++ [u] ++ t :: back := by simp
    obtain ⟨hne, htake, -⟩ := literal_of_scan h hu
    rw [hend, htake, List.getLast?_append, Option.or_eq_some_iff, List.getLast?_eq_none_iff] at hb
    obtain hb | ⟨hnil, -⟩ := hb
    · have hseam := hjoins [] trivial
      rw [append_nil] at hseam
      refine isFirm_of_not_isValue h hu ?_ (mem_of_getLast? hb)
      simpa [hvalue] using hseam.next
    · exact absurd hnil hne
  · cases back with
    | nil =>
      have hseam := hjoins [t] ⟨nofun, trivial⟩
      rw [append_assoc] at hseam
      exact absurd ⟨hvalue, hvalue⟩ hseam.next
    | cons u back =>
      have hu : u ∈ front ++ t :: u :: back := by simp
      obtain ⟨gap, hgap, -, hdrop⟩ := exists_gap h (append_cons front t (u :: back))
      obtain ⟨hne, -, hliteral⟩ := literal_of_scan h hu
      rw [hend] at hdrop
      rw [hdrop, List.head?_append, Option.or_eq_some_iff, hliteral, List.head?_append,
        Option.or_eq_some_iff] at hb
      obtain hb | ⟨-, hb | ⟨hnil, -⟩⟩ := hb
      · exact hgap.isFirm (.inr hb)
      · have hseam := hjoins [] trivial
        rw [append_nil] at hseam
        refine isFirm_of_not_isValue h hu ?_ (mem_of_head? hb)
        simpa [hvalue] using hseam.next
      · exact absurd (List.head?_eq_none_iff.mp hnil) hne

/-- The bytes beside a name belong to no word. -/
theorem beside_name (hjoins : Joins false ts false) (ht : t ∈ ts) (hname : t.kind = .identifier)
    (hb : (src.take t.pos.offset).getLast? = some b ∨ (src.drop t.stop.offset).head? = some b) :
    Text.isWordByte b = false := by
  have hfirm := isFirm_beside h hjoins ht (by simp [isValue, hname]) hb
  simp only [Text.isFirm, Bool.and_eq_true, decide_eq_true_eq, Bool.not_eq_true'] at hfirm
  obtain ⟨hsmall, hdigit⟩ := hfirm
  obtain ⟨_, hfits⟩ := fits_of_mem h ht
  obtain ⟨-, -, hliteral⟩ := literal_of_scan h ht
  obtain ⟨before, g, run, after, hglyphs, hbefore, hrun, -, -, hstarts, hgoes⟩ :=
    hfits.word (.inl hname)
  have hgenuine : ∀ g' ∈ before ++ (g :: run ++ after), g'.Genuine :=
    fun _ hg' => Text.genuine_of_mem_glyphs (hglyphs ▸ hg')
  -- The byte is a character, and the name would go on with it if it were part of a word.
  obtain ⟨g', hcode, hnot⟩ : ∃ g' : Glyph, g'.code = b.toNat ∧ g'.isWordStart = false := by
    rcases hb with hb | hb
    · have hbefore' : ∀ g ∈ before, g.Genuine := fun g hg => hgenuine g (mem_append_left _ hg)
      rw [← hbefore] at hb
      obtain ⟨g', hlast, hbyte⟩ := Text.exists_last_glyph hbefore' hb
      exact ⟨g', ((hbefore' g' (mem_of_getLast? hlast)).mem_bytes_iff hsmall).mp hbyte,
        hstarts g' hlast⟩
    · have hsrc : src = src.take t.pos.offset ++ (t.literal ++ Text.ofGlyphs after) := by
        conv_lhs => rw [← Text.bytes_glyphs src, hglyphs]
        rw [← hbefore, hrun]
        simp [Text.ofGlyphs]
      have hafter : src.drop t.stop.offset = Text.ofGlyphs after :=
        append_cancel_left (hliteral.symm.trans (append_cancel_left
          ((take_append_drop _ src).trans hsrc)))
      rw [hafter] at hb
      cases after with
      | nil => cases hb
      | cons g' after =>
        have hpart := hgoes g' rfl
        rw [Glyph.isWordPart, Bool.or_eq_false_iff] at hpart
        exact ⟨g', (hgenuine g' (by simp)).code_of_head? hsmall hb, hpart.1⟩
  rw [Glyph.isWordStart, Bool.or_eq_false_iff, hcode] at hnot
  have hline : b ≠ 95 := by
    rintro rfl
    exact absurd hnot.1 (by decide)
  simp [Text.isWordByte, hnot.2, hdigit, hline]

end Token

end Foolscap
