import Foolscap.Compile
import Foolscap.Proofs.Text.Excerpts
import Foolscap.Proofs.Token.Lossless
import Foolscap.Proofs.Tree.Parsed
import Foolscap.Proofs.Tree.Recognized
import Foolscap.Proofs.Tree.RunOn

/-!
# Complete trees

A text is parsed to a tree without gaps, or there is one error, at one of its tokens.  In such a
tree no expression and no type is missing, its names are the identifiers of the text, and every
`let` of the text stands in front of declarations.

## Design Notes

A tree does not tell a `let` without declarations from no `let` at all.  So the outline of a tree
has a mark for each list of declarations that is not empty, the outline of a text one for each
`let`, and the two outlines are compared.
-/

namespace Foolscap

open Grammar List

/-! ### Outlines -/

/-- The name in a type. -/
def Ty.outline : Ty → List (Option Text)
  | .ref name => [some name]
  | _ => []

/-- The names in a parameter or a field. -/
def paramOutline (p : Text × Ty) : List (Option Text) := some p.1 :: p.2.outline

mutual

/-- The names in an expression, in order. -/
def Phrase.outline : Phrase → List (Option Text)
  | .missing | .int _ | .bool _ | .null => []
  | .binary _ l r => l.outline ++ r.outline
  | .not e | .print e => e.outline
  | .cond c t e => c.outline ++ (t.outline ++ e.outline)
  | .id name => [some name]
  | .call name as | .new name as => some name :: outlines as
  | .send receiver method as => some receiver :: some method :: outlines as

/-- The names in some expressions, in order. -/
def outlines : List Phrase → List (Option Text)
  | [] => []
  | e :: es => e.outline ++ outlines es

end

/-- The outline of declarations, with a mark in front if there are any. -/
def introduced (ds : List Clause) (outline : List (Option Text)) : List (Option Text) :=
  if ds.isEmpty then [] else none :: outline

mutual

/-- The names in a declaration, in order, with `none` in front of each list of local declarations
that is not empty. -/
def Clause.outline : Clause → List (Option Text)
  | .var name ty value => some name :: (ty.outline ++ value.outline)
  | .fn name ret params decls body =>
    some name :: (ret.outline ++ (params.flatMap paramOutline ++
      (introduced decls (clauseOutlines decls) ++ body.outline)))
  | .cls name super fields methods =>
    some name :: (super.toList.map some ++ (fields.flatMap paramOutline ++ clauseOutlines methods))

/-- The outlines of some declarations, one after the other. -/
def clauseOutlines : List Clause → List (Option Text)
  | [] => []
  | d :: ds => d.outline ++ clauseOutlines ds

end

/-- The names in a program, in order, with `none` in front of each list of declarations that is not
empty. -/
def Script.outline (s : Script) : List (Option Text) :=
  introduced (s.classes ++ s.decls) (clauseOutlines s.classes ++ clauseOutlines s.decls) ++
    s.body.outline

/-- What a token adds to an outline: an identifier its name, `let` the mark. -/
def Token.mention? (t : Token) : Option (Option Text) :=
  match t.kind with
  | .identifier => some (some t.literal)
  | .kwLet => some none
  | _ => none

/-- The identifiers among some tokens, in order, with `none` for each `let`. -/
def Token.outline (ts : List Token) : List (Option Text) := ts.filterMap Token.mention?

namespace Grammar

@[simp] theorem outline_append (ts us : List Token) :
    Token.outline (ts ++ us) = Token.outline ts ++ Token.outline us :=
  filterMap_append

variable {ts : List Token} {k : TokenKind} {α : Type} {ds : List Clause} {P : List Token → α → Prop}
  {f : α → List (Option Text)} {as : List α}

theorem Mark.outline (h : Mark k ts) (hi : k ≠ .identifier := by decide)
    (hl : k ≠ .kwLet := by decide) : Token.outline ts = [] := by
  obtain ⟨t, rfl, rfl⟩ := h
  have hnone : t.mention? = none := by
    unfold Token.mention?
    split
    · next hk => exact absurd hk hi
    · next hk => exact absurd hk hl
    · rfl
  simp [Token.outline, hnone]

theorem outline_let (h : Mark .kwLet ts) : Token.outline ts = [none] := by
  obtain ⟨t, rfl, hk⟩ := h
  simp [Token.outline, Token.mention?, hk]

theorem Name.outline {name : Text} (h : Name name ts) : Token.outline ts = [some name] := by
  obtain ⟨t, rfl, hk, rfl⟩ := h
  simp [Token.outline, Token.mention?, hk]

theorem outline_leftAssociated (first : Phrase) (rest : List (BinaryOp × Phrase)) :
    (leftAssociated first rest).outline = first.outline ++ rest.flatMap fun e => e.2.outline := by
  induction rest generalizing first with
  | nil => simp [leftAssociated]
  | cons e rest ih =>
    have hstep : leftAssociated first (e :: rest) =
        leftAssociated (.binary e.1 first e.2) rest := rfl
    rw [hstep, ih, Phrase.outline, flatMap_cons, append_assoc]

/-- Only identifiers and `let` count, and no operator is one of them. -/
theorem outline_operator {level : Nat} {op : BinaryOp} (h : (k, op) ∈ operators level)
    (hmark : Mark k ts) : Token.outline ts = [] := by
  have hop := (Parser.mem_operators_iff.mp h).1
  refine hmark.outline ?_ ?_
  · rintro rfl
    cases hop
  · rintro rfl
    cases hop

theorem Numeral.outline {n : Nat} (h : Numeral n ts) : Token.outline ts = [] :=
  h.mark.outline

mutual

/-- The names of an expression are the identifiers it is derived from. -/
theorem ExprOf.outline {level : Nat} {ts : List Token} {e : Phrase} :
    ExprOf level ts e → Token.outline ts = e.outline
  | .operation _ hfirst hrest => by
    rw [outline_append, hfirst.outline, hrest.outline, outline_leftAssociated]
  | .factor h => h.outline

theorem OperandsOf.outline {level : Nat} {ts : List Token} {rest : List (BinaryOp × Phrase)} :
    OperandsOf level ts rest → Token.outline ts = rest.flatMap fun e => e.2.outline
  | .nil => rfl
  | .cons hop hmark he hrest => by
    rw [outline_append, outline_append, outline_operator hop hmark, he.outline, hrest.outline]
    rfl

/-- The outline of a derivation is that of its tokens: each rule has the names of its parts in the
order in which they are written. -/
theorem FactorOf.outline {ts : List Token} {e : Phrase} :
    FactorOf ts e → Token.outline ts = e.outline
  | .not hn h => by simp [hn.outline, h.outline, Phrase.outline]
  | .parens hl h hr => by simp [hl.outline, h.outline, hr.outline]
  | .int hn => hn.outline
  | .negative hm hn => by simp [hm.outline, hn.outline, Phrase.outline]
  | .yes h | .no h | .null h => h.outline
  | .new hn hi has => by simp [hn.outline, hi.outline, outline_args has, Phrase.outline]
  | .cond hi hc ht htl hy htr he hel hn her => by
    simp [hi.outline, hc.outline, ht.outline, htl.outline, hy.outline, htr.outline, he.outline,
      hel.outline, hn.outline, her.outline, Phrase.outline]
  | .print hp hl h hr => by simp [hp.outline, hl.outline, h.outline, hr.outline, Phrase.outline]
  | .id hi => hi.outline
  | .call hi has => by simp [hi.outline, outline_args has, Phrase.outline]
  | .send hi hd hm has => by
    simp [hi.outline, hd.outline, hm.outline, outline_args has, Phrase.outline]

theorem outline_args {ts : List Token} {as : List Phrase} :
    Enclosed (ExprOf 0) ts as → Token.outline ts = outlines as
  | .none hl hr => by simp [hl.outline, hr.outline, outlines]
  | .some hl has hr => by simp [hl.outline, outline_someArgs has, hr.outline]

theorem outline_someArgs {ts : List Token} {as : List Phrase} :
    Separated (ExprOf 0) ts as → Token.outline ts = outlines as
  | .one h => by simp [h.outline, outlines]
  | .more h hc has => by simp [h.outline, hc.outline, outline_someArgs has, outlines]

end

/-- Parts with commas between them have the outlines of the parts. -/
theorem Separated.outline (hP : ∀ ts a, P ts a → Token.outline ts = f a) (h : Separated P ts as) :
    Token.outline ts = as.flatMap f := by
  induction h with
  | one ha => rw [hP _ _ ha, flatMap_singleton]
  | more ha hc _ ih => simp [hP _ _ ha, hc.outline, ih]

theorem Enclosed.outline (hP : ∀ ts a, P ts a → Token.outline ts = f a) (h : Enclosed P ts as) :
    Token.outline ts = as.flatMap f := by
  cases h with
  | none hl hr => simp [hl.outline, hr.outline]
  | some hl has hr => simp [hl.outline, has.outline hP, hr.outline]

theorem Many.outline {P : List Token → Clause → Prop}
    (hP : ∀ ts d, P ts d → Token.outline ts = d.outline) (h : Many P ts ds) :
    Token.outline ts = clauseOutlines ds := by
  induction h with
  | nil => rfl
  | cons hd _ ih => rw [outline_append, hP _ _ hd, ih, clauseOutlines]

theorem TypeOf.outline {ty : Ty} (h : TypeOf ts ty) : Token.outline ts = ty.outline := by
  cases h with
  | int h | bool h | ref h => exact h.outline

theorem ParamOf.outline (ts : List Token) (p : Text × Ty) (h : ParamOf ts p) :
    Token.outline ts = paramOutline p := by
  obtain ⟨hi, hc, hty⟩ := h
  simp [hi.outline, hc.outline, hty.outline, paramOutline]

mutual

/-- The names of a declaration are the identifiers it is derived from, and its lists of declarations
stand behind `let`. -/
theorem DeclOf.outline {ts : List Token} {d : Clause} : DeclOf ts d → Token.outline ts = d.outline
  | .var hv hi hc hty ha hvalue hs => by
    simp [hv.outline, hi.outline, hc.outline, hty.outline, ha.outline, hvalue.outline, hs.outline,
      Clause.outline]
  | .fn h => h.outline

theorem RoutineOf.outline {ts : List Token} {d : Clause} :
    RoutineOf ts d → Token.outline ts = d.outline
  | .mk hf hi hc hret hps hls hbody hs => by
    simp [hf.outline, hi.outline, hc.outline, hret.outline, hps.outline ParamOf.outline,
      hls.outline, hbody.outline, hs.outline, Clause.outline]

theorem LocalsOf.outline {ts : List Token} {ds : List Clause} :
    LocalsOf ts ds → Token.outline ts = introduced ds (clauseOutlines ds)
  | .none => rfl
  | .some hl hds hne hi => by simp [outline_let hl, outline_decls hds, hi.outline, introduced, hne]

theorem outline_decls {ts : List Token} {ds : List Clause} :
    Many DeclOf ts ds → Token.outline ts = clauseOutlines ds
  | .nil => rfl
  | .cons hd hds => by rw [outline_append, hd.outline, outline_decls hds, clauseOutlines]

end

theorem SuperOf.outline {super : Option Text} (h : SuperOf ts super) :
    Token.outline ts = super.toList.map Option.some := by
  cases h with
  | none => rfl
  | some he hi => simp [he.outline, hi.outline]

theorem ClassOf.outline (ts : List Token) (d : Clause) (h : ClassOf ts d) :
    Token.outline ts = d.outline := by
  obtain ⟨hc, hi, hes, hps, hl, hms, hr⟩ := h
  simp [hc.outline, hi.outline, hes.outline, hps.outline ParamOf.outline, hl.outline,
    hms.outline fun _ _ h => h.outline, hr.outline, Clause.outline]

theorem GlobalsOf.outline {cs : List Clause} (h : GlobalsOf ts cs ds) :
    Token.outline ts = introduced (cs ++ ds) (clauseOutlines cs ++ clauseOutlines ds) := by
  cases h with
  | none => rfl
  | some hl hcs hds hne hi =>
    have hsome : (cs ++ ds).isEmpty = false := by
      rw [Bool.eq_false_iff, ne_eq, List.isEmpty_iff, List.append_eq_nil_iff]
      exact not_and_or.mpr hne
    simp [outline_let hl, hcs.outline ClassOf.outline, outline_decls hds, hi.outline, introduced,
      hsome]

/-- A program has the outline of the tokens it is derived from. -/
theorem ScriptOf.outline {s : Script} (h : ScriptOf ts s) : Token.outline ts = s.outline := by
  obtain ⟨hgs, hbody, hs⟩ := h
  simp [hgs.outline, hbody.outline, hs.outline, Script.outline]

end Grammar

/-! ### Identifiers -/

/-- Whether a text is an identifier: a letter or an underscore, then letters, digits and
underscores, and no reserved word. -/
def Text.isIdentifier (t : Text) : Bool :=
  match t.glyphs with
  | [] => false
  | g :: gs => g.isWordStart && gs.all Glyph.isWordPart &&
      TokenKind.reserved.all fun k => k.name != t

theorem TokenKind.name_ne_of_ofWord {w : Text} (h : ofWord w = .identifier) {k : TokenKind}
    (hk : k ∈ reserved) : k.name ≠ w := by
  intro hname
  unfold ofWord at h
  cases hfind : reserved.find? fun k => k.name == w with
  | none =>
    have hnone := List.find?_eq_none.mp hfind k hk
    exact hnone (beq_iff_eq.mpr hname)
  | some k' =>
    rw [hfind] at h
    obtain rfl : k' = .identifier := h
    have hmem := mem_of_find?_eq_some hfind
    revert hmem
    decide

namespace Token

/-- A token that is an identifier is a run of characters that make up a word, and no reserved
word. -/
theorem word_of_next {p : Position} {gs : List Glyph} (h : (next p gs).1.kind = .identifier) :
    ∃ g run, g :: run <:+: gs ∧ (next p gs).1.literal = Text.ofGlyphs (g :: run) ∧
      g.isWordStart ∧ (∀ h ∈ run, h.isWordPart) ∧
      TokenKind.ofWord (next p gs).1.literal = .identifier := by
  rcases next_cases p gs with hlast | ⟨q, g, rest, hsuffix, heq⟩
  · rw [h] at hlast
    cases hlast
  rw [heq] at h ⊢
  cases (lexed_lexeme q g rest).1 with
  | number run hgs hliteral hkind => cases hkind.symm.trans h
  | word run hgs hliteral hkind hg hrun hend =>
    refine ⟨g, run, ?_, hliteral, hg, hrun, hkind.symm.trans h⟩
    have hprefix : g :: run <+: g :: rest := by
      rw [hgs]
      exact (prefix_append (g :: run) _)
    exact hprefix.isInfix.trans hsuffix.isInfix
  | sign run hgs hliteral hkind => exact absurd h hkind.2.2.1
  | stray hkind => cases hkind.symm.trans h

/-- The identifiers of a text can be names. -/
theorem isIdentifier_of_mem {src : Text} {t : Token} (ht : t ∈ scan src)
    (hkind : t.kind = .identifier) : t.literal.isIdentifier := by
  obtain ⟨q, rest, hrest, rfl⟩ := mem_scanFor ht
  obtain ⟨g, run, hpart, hliteral, hg, hrun, hword⟩ := word_of_next hkind
  have hglyphs : (next q rest).1.literal.glyphs = g :: run := by
    rw [hliteral]
    exact Text.glyphs_ofGlyphs (hpart.trans hrest.isInfix)
  rw [Text.isIdentifier, hglyphs]
  simp only [Bool.and_eq_true, all_eq_true, bne_iff_ne]
  exact ⟨⟨hg, hrun⟩, fun k hk => TokenKind.name_ne_of_ofWord hword hk⟩

theorem mem_outline {ts : List Token} {name : Text} (h : some name ∈ outline ts) :
    ∃ t ∈ ts, t.kind = .identifier ∧ t.literal = name := by
  obtain ⟨t, ht, hmention⟩ := mem_filterMap.mp h
  refine ⟨t, ht, ?_⟩
  unfold mention? at hmention
  split at hmention
  · next hkind => exact ⟨hkind, by simpa using hmention⟩
  · cases hmention
  · cases hmention

end Token

/-! ### Parsed texts -/

namespace Program

/-- A tree without gaps, read from some tokens: no expression and no type is missing, its names are
the identifiers among the tokens, which are no reserved words, and its lists of declarations that
are not empty stand where the tokens have `let`. -/
structure Complete (p : Program) (ts : List Token) : Prop where
  whole : p.Whole
  plain : p.Plain
  outline : p.script.outline = Token.outline ts
  identifiers : ∀ name, some name ∈ p.script.outline → name.isIdentifier

/-- A program that was read is derived from the tokens of its text, so it has their outline and no
gaps. -/
theorem complete_of_parse {src : Text} {p : Program} (h : parse src = .ok p) :
    p.Complete (Token.scan src) := by
  rcases parse_cases src with ⟨p', ts, t, hp', hts, ht, hscript, hwhole⟩ | ⟨d, hd, -⟩
  · cases h.symm.trans hp'
    have hend : Token.outline [t] = [] := by simp [Token.outline, Token.mention?, ht]
    have houtline : p.script.outline = Token.outline (Token.scan src) := by
      rw [hts, outline_append, hend, append_nil, hscript.outline]
    refine ⟨hwhole, plain_of_parse h, houtline, fun name hname => ?_⟩
    rw [houtline] at hname
    obtain ⟨u, hu, hkind, rfl⟩ := Token.mem_outline hname
    exact Token.isIdentifier_of_mem hu hkind
  · cases h.symm.trans hd

/-- **The parser ends with a complete tree or with one error.**  A text is parsed to a tree without
gaps.  Or it is not, and then there is just one diagnostic, of the parser, at a token of the text;
it is not that the parser gave up.  A parser that runs on after an error, with nothing but a flag to
keep it from reporting more and from handing out a tree with gaps, ends in the same way, within a
number of turns that depends on how many tokens there are. -/
theorem parse_completely (src : Text) :
    (∃ p, parse src = .ok p ∧ p.Complete (Token.scan src) ∧
        ∀ bound ≥ RunOn.boundFor src, RunOn.parse bound src = some (some p, [])) ∨
      ∃ d, parse src = .error d ∧ d.phase = .parsing ∧ d.cause ≠ .parsing .outOfFuel ∧
        (∃ t ∈ Token.scan src, d.pos = t.pos) ∧
        (Foolscap.analyse src).value.program = none ∧
        (Foolscap.analyse src).value.errors = [d] ∧
        ∀ bound ≥ RunOn.boundFor src, RunOn.parse bound src = some (none, [d]) := by
  rcases parse_cases src with ⟨p, -, -, hp, -⟩ | ⟨d, hd, e, hcause, -⟩
  · refine .inl ⟨p, hp, complete_of_parse hp, fun bound hbound => ?_⟩
    rw [RunOn.parse_eq hbound, hp]
    rfl
  · refine .inr ⟨d, hd, ?_, cause_of_parse hd, isAt_of_parse hd, ?_, ?_, fun bound hbound => ?_⟩
    · rw [Diagnostic.phase, hcause]
      rfl
    · rw [Foolscap.analyse, hd]
    · rw [Foolscap.analyse, hd]
    · rw [RunOn.parse_eq hbound, hd]
      rfl

-- One mark for each of the two lists of declarations, none for the function without any.
example : (parse "let fun f:A () let fun g:int () 1; in new A(); in f();").map
      (fun p => p.script.outline) =
    .ok [none, some "f", some "A", none, some "g", some "A", some "f"] := by rfl

end Program

end Foolscap
