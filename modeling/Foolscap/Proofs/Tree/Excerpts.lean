import Foolscap.Proofs.Token.Excerpts
import Foolscap.Proofs.Tree.Readings
import Foolscap.Proofs.Tree.Recognized

/-!
# Excerpts of a program

The part of a text that an expression was read from, read alone.  The grammar looks at the kinds and
the literals of tokens only, so it derives the same expression from the tokens of the excerpt.
-/

namespace Foolscap

open Token List

namespace Token.Alike

variable {ts us ts' : List Token} {t : Token}

/-- Tokens like those of two sequences are two sequences. -/
theorem split (h : Alike (ts ++ us) ts') : ∃ vs ws, ts' = vs ++ ws ∧ Alike ts vs ∧ Alike us ws := by
  rw [Alike, map_append] at h
  obtain ⟨vs, ws, hts', hvs, hws⟩ := append_eq_map_iff.mp h
  exact ⟨vs, ws, hts', hvs.symm, hws.symm⟩

theorem exists_singleton (h : Alike [t] ts') :
    ∃ t', ts' = [t'] ∧ t'.kind = t.kind ∧ t'.literal = t.literal := by
  obtain ⟨t', rest, rfl, ht', hrest⟩ := map_eq_cons_iff.mp h.symm
  obtain rfl := map_eq_nil_iff.mp hrest
  exact ⟨t', rfl, congrArg Prod.fst ht', congrArg Prod.snd ht'⟩

end Token.Alike

namespace Grammar

/-! ### Derivations over other tokens -/

variable {ts ts' : List Token}

theorem Mark.alike {k : TokenKind} (h : Mark k ts) (ha : Alike ts ts') : Mark k ts' := by
  obtain ⟨t, rfl, rfl⟩ := h
  obtain ⟨t', rfl, hkind, -⟩ := ha.exists_singleton
  exact ⟨t', rfl, hkind⟩

theorem Name.alike {name : Text} (h : Name name ts) (ha : Alike ts ts') : Name name ts' := by
  obtain ⟨t, rfl, hk, rfl⟩ := h
  obtain ⟨t', rfl, hkind, hliteral⟩ := ha.exists_singleton
  exact ⟨t', rfl, hkind.trans hk, hliteral⟩

theorem Numeral.alike {n : Nat} (h : Numeral n ts) (ha : Alike ts ts') : Numeral n ts' := by
  obtain ⟨t, rfl, hk, hn⟩ := h
  obtain ⟨t', rfl, hkind, hliteral⟩ := ha.exists_singleton
  exact ⟨t', rfl, hkind.trans hk, by rwa [hliteral]⟩

mutual

/-- The grammar derives an expression from all tokens that differ in their places only. -/
theorem ExprOf.alike {level : Nat} {ts ts' : List Token} {e : Phrase} :
    ExprOf level ts e → Alike ts ts' → ExprOf level ts' e
  | .operation hlevel hfirst hrest, ha => by
    obtain ⟨_, _, rfl, hts, hus⟩ := ha.split
    exact .operation hlevel (hfirst.alike hts) (hrest.alike hus)
  | .factor h, ha => .factor (h.alike ha)

theorem OperandsOf.alike {level : Nat} {ts ts' : List Token} {rest : List (BinaryOp × Phrase)} :
    OperandsOf level ts rest → Alike ts ts' → OperandsOf level ts' rest
  | .nil, ha => by
    obtain rfl := map_eq_nil_iff.mp ha.symm
    exact .nil
  | .cons hop hmark he hrest, ha => by
    obtain ⟨_, _, rfl, ho, ha⟩ := ha.split
    obtain ⟨_, _, rfl, hts, hus⟩ := ha.split
    exact .cons hop (hmark.alike ho) (he.alike hts) (hrest.alike hus)

/-- The grammar looks at the kinds of tokens and at what they spell, not at where they are. -/
theorem FactorOf.alike {ts ts' : List Token} {e : Phrase} :
    FactorOf ts e → Alike ts ts' → FactorOf ts' e
  | .not hn h, ha => by
    obtain ⟨_, _, rfl, hn', hts⟩ := ha.split
    exact .not (hn.alike hn') (h.alike hts)
  | .parens hl h hr, ha => by
    obtain ⟨_, _, rfl, hl', ha⟩ := ha.split
    obtain ⟨_, _, rfl, hts, hr'⟩ := ha.split
    exact .parens (hl.alike hl') (h.alike hts) (hr.alike hr')
  | .int hn, ha => .int (hn.alike ha)
  | .negative hm hn, ha => by
    obtain ⟨_, _, rfl, hm', hts⟩ := ha.split
    exact .negative (hm.alike hm') (hn.alike hts)
  | .yes h, ha => .yes (h.alike ha)
  | .no h, ha => .no (h.alike ha)
  | .null h, ha => .null (h.alike ha)
  | .new hn hi has, ha => by
    obtain ⟨_, _, rfl, hn', ha⟩ := ha.split
    obtain ⟨_, _, rfl, hi', hts⟩ := ha.split
    exact .new (hn.alike hn') (hi.alike hi') (enclosed_alike has hts)
  | .cond hi hc ht htl hy htr he hel hn her, ha => by
    obtain ⟨_, _, rfl, hi', ha⟩ := ha.split
    obtain ⟨_, _, rfl, hc', ha⟩ := ha.split
    obtain ⟨_, _, rfl, ht', ha⟩ := ha.split
    obtain ⟨_, _, rfl, htl', ha⟩ := ha.split
    obtain ⟨_, _, rfl, hy', ha⟩ := ha.split
    obtain ⟨_, _, rfl, htr', ha⟩ := ha.split
    obtain ⟨_, _, rfl, he', ha⟩ := ha.split
    obtain ⟨_, _, rfl, hel', ha⟩ := ha.split
    obtain ⟨_, _, rfl, hn', her'⟩ := ha.split
    exact .cond (hi.alike hi') (hc.alike hc') (ht.alike ht') (htl.alike htl') (hy.alike hy')
      (htr.alike htr') (he.alike he') (hel.alike hel') (hn.alike hn') (her.alike her')
  | .print hp hl h hr, ha => by
    obtain ⟨_, _, rfl, hp', ha⟩ := ha.split
    obtain ⟨_, _, rfl, hl', ha⟩ := ha.split
    obtain ⟨_, _, rfl, hts, hr'⟩ := ha.split
    exact .print (hp.alike hp') (hl.alike hl') (h.alike hts) (hr.alike hr')
  | .id hi, ha => .id (hi.alike ha)
  | .call hi has, ha => by
    obtain ⟨_, _, rfl, hi', hts⟩ := ha.split
    exact .call (hi.alike hi') (enclosed_alike has hts)
  | .send hi hd hm has, ha => by
    obtain ⟨_, _, rfl, hi', ha⟩ := ha.split
    obtain ⟨_, _, rfl, hd', ha⟩ := ha.split
    obtain ⟨_, _, rfl, hm', hts⟩ := ha.split
    exact .send (hi.alike hi') (hd.alike hd') (hm.alike hm') (enclosed_alike has hts)

theorem enclosed_alike {ts ts' : List Token} {as : List Phrase} :
    Enclosed (ExprOf 0) ts as → Alike ts ts' → Enclosed (ExprOf 0) ts' as
  | .none hl hr, ha => by
    obtain ⟨_, _, rfl, hl', hr'⟩ := ha.split
    exact .none (hl.alike hl') (hr.alike hr')
  | .some hl has hr, ha => by
    obtain ⟨_, _, rfl, hl', ha⟩ := ha.split
    obtain ⟨_, _, rfl, hts, hr'⟩ := ha.split
    exact .some (hl.alike hl') (separated_alike has hts) (hr.alike hr')

theorem separated_alike {ts ts' : List Token} {as : List Phrase} :
    Separated (ExprOf 0) ts as → Alike ts ts' → Separated (ExprOf 0) ts' as
  | .one h, ha => .one (h.alike ha)
  | .more h hc has, ha => by
    obtain ⟨_, _, rfl, hts, ha⟩ := ha.split
    obtain ⟨_, _, rfl, hc', hus⟩ := ha.split
    exact .more (h.alike hts) (hc.alike hc') (separated_alike has hus)

end

end Grammar

/-! ### Expressions -/

namespace Program

variable {src : Text} {p : Program} {e : Expr}

/-- A program that consists of an expression, without places. -/
theorem of_script {phrase : Phrase} (h : p.script = ⟨[], [], phrase⟩) :
    p.classes = [] ∧ p.decls = [] ∧ p.body.phrase = phrase := by
  obtain ⟨_, classes, decls, body⟩ := p
  simp only [script, Script.mk.injEq, map_eq_nil_iff] at h
  obtain ⟨hclasses, hdecls, hbody⟩ := h
  refine ⟨hclasses, ?_, hbody⟩
  cases decls with
  | nil => rfl
  | cons d ds => cases hdecls

/-- The body of a program is one of its nodes. -/
theorem body_mem_nodes (h : p.body ≠ .missing) : .expr p.body ∈ p.nodes := by
  rw [nodes_eq, Node.below, Expr.walk_eq h]
  exact mem_cons_of_mem _ (mem_append_right _ mem_cons_self)

/-- An expression of a program that was read from a text is what the grammar derives from a stretch
of the tokens, and it has no bindings. -/
theorem exists_stretch (h : parse src = .ok p) (he : .expr e ∈ p.nodes) :
    ∃ front own back last, scan src = front ++ (own ++ back) ++ [last] ∧ own ≠ [] ∧
      (Node.expr e).span = spanOf own ∧ Grammar.ExprOf 0 own e.phrase ∧ e.unbound = e := by
  obtain ⟨ts, last, hts, -, hlaid⟩ := laid_of_parse h
  obtain ⟨front, own, back, rfl, hfills, -, -⟩ := hlaid.exists_block he
  obtain ⟨hderived, hunbound⟩ := hfills.expr e rfl
  exact ⟨front, own, back, last, hts, hfills.nonempty, hfills.span, hderived, hunbound⟩

/-- A program that was read from a text has no bindings in its body. -/
theorem body_unbound (h : parse src = .ok p) : p.body.unbound = p.body := by
  by_cases hbody : p.body = .missing
  · rw [hbody]
    rfl
  · obtain ⟨_, _, _, _, -, -, -, -, hunbound⟩ := exists_stretch h (body_mem_nodes hbody)
    exact hunbound

/-- **Spans delimit their own source.**  Take an expression of a program that was read from a text.
Its part of the text with a semicolon behind it is a program without declarations, and the body of
that program is the same expression up to places: neither of them has bindings, and without places
they are the same.  Both ends of the span are positions of the text. -/
theorem parse_excerpt (h : parse src = .ok p) (he : .expr e ∈ p.nodes) :
    (∃ p', parse ((src.take (Node.expr e).span.stop.offset).drop (Node.expr e).span.start.offset ++
        (";" : Text)) = .ok p' ∧
      p'.classes = [] ∧ p'.decls = [] ∧ p'.body.phrase = e.phrase ∧
      p'.body.unbound = p'.body ∧ e.unbound = e) ∧
    (Node.expr e).span.start.At src ∧ (Node.expr e).span.stop.At src := by
  obtain ⟨hstart, hstop, -⟩ := (IsReading.of_parse h (.inl rfl)).ends he
  refine ⟨?_, hstart, hstop⟩
  obtain ⟨front, own, back, last, hscan, hne, hspan, hderived, hunbound⟩ := exists_stretch h he
  obtain ⟨done, used, rest, p₁, q, hreading, hparted, hscans, -, -⟩ := exists_scans hscan
  -- The stretch ends with the last of its tokens.
  obtain rfl : q = (spanOf own).stop := by
    obtain ⟨init, final, rfl⟩ := List.eq_nil_or_concat own |>.resolve_left hne
    rw [List.concat_eq_append] at hscans ⊢
    rw [hscans.stop_eq, spanOf, List.getLastD_concat]
  cases own with
  | nil => exact absurd rfl hne
  | cons first more =>
    obtain ⟨us, u, v, hus, halike, hu, hv⟩ := hscans.excerpt hreading hparted
    rw [hspan]
    have hsentence := sentence_eq hus hv
    have hscript : Grammar.ScriptOf (us ++ [u]) ⟨[], [], e.phrase⟩ :=
      .mk .none (hderived.alike halike) ⟨u, rfl, hu⟩
    have hflaw : ∀ t ∈ us ++ [u], t.kind ≠ .error := fun t ht => (kind_of_mem hus ht).2
    rw [← hsentence] at hscript hflaw
    have hrange : Script.InRange ⟨[], [], e.phrase⟩ := ⟨trivial, trivial, e.phrase_inRange⟩
    obtain ⟨p', hp', hscript'⟩ := (parse_of_scriptOf hflaw hscript).1 hrange
    obtain ⟨hclasses, hdecls, hbody⟩ := of_script hscript'
    exact ⟨p', hp', hclasses, hdecls, hbody, body_unbound hp', hunbound⟩

/-- A negation of a comparison in parentheses, with a comment in it. -/
def commentedText : Text := "let var x:int = 2; in !(x //\n== -1);"

/-- The operand of the negation is read again without the parentheses around it. -/
theorem parse_excerpt_commented : ∃ p e, parse commentedText = .ok p ∧ .expr e ∈ p.nodes ∧
    (commentedText.take (Node.expr e).span.stop.offset).drop (Node.expr e).span.start.offset =
      ("x //\n== -1" : Text) ∧
    ∃ p', parse "x //\n== -1;" = .ok p' ∧ p'.body.phrase = e.phrase := by
  obtain ⟨p, hp, hany⟩ := exists_ok_of_any (x := parse commentedText)
    (q := fun p => p.nodes.any fun n => match n with
      | .expr e => decide ((commentedText.take (Node.expr e).span.stop.offset).drop
          (Node.expr e).span.start.offset = ("x //\n== -1" : Text))
      | _ => false) (by decide +kernel)
  obtain ⟨n, hn, hexcerpt⟩ := List.any_eq_true.mp hany
  cases n with
  | expr e =>
    have hexcerpt := of_decide_eq_true hexcerpt
    obtain ⟨⟨p', hp', -, -, hbody, -⟩, -⟩ := parse_excerpt hp hn
    rw [hexcerpt] at hp'
    exact ⟨p, e, hp, hn, hexcerpt, p', hp', hbody⟩
  | _ => cases hexcerpt

end Program

end Foolscap
