import Foolscap.Editor
import Foolscap.Proofs.Editor.Enclosing
import Foolscap.Proofs.Editor.Places
import Foolscap.Proofs.Scope.Recorded
import Foolscap.Proofs.Tree.Seams

/-!
# From a name to its declaration

An editor finds the declaration of a name by its text: it takes the word around a place and asks the
nodes around the place for it, the innermost first.  In a program without scope errors it finds what
the name was resolved to, unless the name can be mistaken for another one.
-/

namespace Foolscap

open List

/-! ### Words -/

namespace Text

theorem splitAt_getElem?_zero (b : UInt8) (t : Text) :
    (splitAt b t)[0]? = some (t.takeWhile (· != b)) := by
  induction t with
  | nil => rfl
  | cons c t ih =>
    rw [splitAt]
    split
    · next hc => simp [hc]
    · next hc =>
      cases hs : splitAt b t with
      | nil => exact absurd hs (splitAt_ne_nil b t)
      | cons p ps =>
        rw [hs] at ih
        cases ih
        simp [hc]

theorem splitAt_getElem?_count (b : UInt8) (s t : Text) :
    (splitAt b (s ++ b :: t))[s.count b + 1]? = (splitAt b t)[0]? := by
  induction s with
  | nil => simp [splitAt]
  | cons c s ih =>
    rw [cons_append, splitAt]
    split
    · next hc => rw [hc, count_cons_self, List.getElem?_cons_succ, ih]
    · next hc =>
      rw [count_cons_of_ne hc]
      cases hs : splitAt b (s ++ b :: t) with
      | nil => exact absurd hs (splitAt_ne_nil b _)
      | cons p ps =>
        rw [hs] at ih
        exact ih

/-- The line behind some whole lines. -/
theorem lines_getElem? {front : Text} (h : front.WholeLines) (t : Text) :
    (front ++ t).lines[front.count newline]? = some (t.takeWhile (· != newline)) := by
  rcases h with rfl | ⟨u, rfl⟩
  · exact splitAt_getElem?_zero newline t
  · rw [count_append, count_singleton_self, append_assoc]
    exact (splitAt_getElem?_count newline u t).trans (splitAt_getElem?_zero newline t)

/-- A word with no more of it beside it is found from every place in it. -/
theorem wordAt_eq {src w : Text} {p : Position} (hp : p.At src) (hw : w <+: src.drop p.offset)
    (hword : ∀ b ∈ w, isWordByte b)
    (hbeside : ∀ b, (src.take p.offset).getLast? = some b ∨
      (src.drop (p.offset + w.length)).head? = some b → isWordByte b = false)
    {k : Nat} (hk : k ≤ w.length) : src.wordAt (Place.ofPosition (p.forward k)) = w := by
  obtain ⟨front, line, rest, rfl, hfront, hnone, rfl⟩ := hp.split
  dsimp only at hw hbeside
  rw [← append_assoc, ← length_append] at hw hbeside
  rw [drop_left] at hw
  obtain ⟨rest, rfl⟩ := hw
  rw [← drop_drop, drop_left, drop_left, take_left] at hbeside
  have hline : ∀ {s : Text}, newline ∉ s → ∀ b ∈ s, (b != newline) = true := by
    intro s hs b hb
    exact bne_iff_ne.mpr fun h => hs (h ▸ hb)
  have hnone' : newline ∉ w := fun hmem => absurd (hword _ hmem) (by decide)
  have haround : (front ++ (line ++ (w ++ rest))).around (Place.ofPosition
      (Position.forward ⟨front.length + line.length, front.count newline + 1, line.length + 1⟩ k)) =
      (line ++ w.take k, w.drop k ++ rest.takeWhile (· != newline)) := by
    have hcolumn : line.length + 1 + k - 1 = line.length + k := by omega
    simp only [around, Place.ofPosition, Position.forward, Nat.add_sub_cancel, hcolumn,
      lines_getElem? hfront, takeWhile_append_of_pos (hline hnone),
      takeWhile_append_of_pos (hline hnone')]
    rw [take_length_add_append, drop_length_add_append, take_append_of_le_length hk,
      drop_append_of_le_length hk]
  have hbefore : line.reverse.takeWhile isWordByte = [] := by
    obtain rfl | ⟨line, b, rfl⟩ := line.eq_nil_or_concat
    · rfl
    · have hb := hbeside b (.inl (by simp))
      simp [hb]
  have hafter : (rest.takeWhile (· != newline)).takeWhile isWordByte = [] := by
    cases rest with
    | nil => rfl
    | cons b rest =>
      have hb := hbeside b (.inr rfl)
      rw [takeWhile_cons]
      split <;> simp [hb]
  rw [wordAt, fragmentAt, haround]
  dsimp only
  rw [reverse_append, takeWhile_append_of_pos, hbefore, append_nil,
    reverse_reverse, takeWhile_append_of_pos, hafter, append_nil,
    take_append_drop]
  · exact fun b hb => hword b (mem_of_mem_drop hb)
  · exact fun b hb => hword b (mem_of_mem_take (mem_reverse.mp hb))

end Text

/-! ### Nodes -/

namespace Program

variable {src : Text} {p q : Program} {n n' : Node} {m : Mention} {ts : List Token} {t last : Token}

/-- The node that holds a name is the innermost one around it. -/
theorem IsReading.enclosing_of_names (h : IsReading src q) (hts : Token.scan src = ts ++ [last])
    (ht : t ∈ ts) (hn : n ∈ q.nodes) (hname : t.Names n m) {offset : Nat}
    (hstart : t.pos.offset ≤ offset) (hstop : offset ≤ t.stop.offset) :
    ∃ outer, q.enclosing offset = n :: outer ∧ ∀ n' ∈ outer, n' ∈ q.nodes ∧ t.Within n'.span ∧
      ∃ m' ∈ n'.below, m'.unbound = n.unbound := by
  have hlt : t.pos.offset < t.stop.offset := (Token.ordered_scan hts).nonempty t ht
  have hmem : ∀ n', n' ∈ q.enclosing offset ↔ n' ∈ q.nodes ∧ t.Within n'.span := by
    intro n'
    rw [h.enclosing_eq, mem_reverse, mem_filter]
    refine and_congr_right fun hn' => ?_
    simp only [Span.contains, Bool.and_eq_true, decide_eq_true_eq]
    rcases h.within_or_apart hts ht hname.kind hn' with hwithin | hapart
    · obtain ⟨hle, hle'⟩ := hwithin
      exact iff_of_true ⟨by omega, by omega⟩ ⟨hle, hle'⟩
    · unfold Token.Apart at hapart
      exact iff_of_false (by omega) fun hwithin => by have := hwithin.1; have := hwithin.2; omega
  -- Both of two nodes around the name have it in them, so one of them lies inside of the other.
  have hnested : (q.enclosing offset).Pairwise fun n₁ n₂ => n₁.span.Inside n₂.span := by
    have hprecedes : q.nodes.Pairwise fun n m => n.span.Precedes m.span :=
      pairwise_map.mp h.precedes
    have hall := h.enclosing_eq offset ▸ pairwise_reverse.mpr (hprecedes.filter _)
    refine hall.imp_of_mem fun {n₁ n₂} hn₁ hn₂ hprec => ?_
    obtain ⟨-, hin₁, -⟩ := (hmem n₁).mp hn₁
    obtain ⟨-, -, hin₂⟩ := (hmem n₂).mp hn₂
    exact hprec.resolve_right (by omega)
  have hself := (hmem n).mpr ⟨hn, hname.within⟩
  cases houter : q.enclosing offset with
  | nil => rw [houter] at hself; cases hself
  | cons n₀ outer =>
    rw [houter] at hself hnested
    obtain ⟨hfirst, -⟩ := pairwise_cons.mp hnested
    rcases mem_cons.mp hself with rfl | hself
    · refine ⟨outer, rfl, fun n' hn' => ?_⟩
      obtain ⟨hnode, hwithin⟩ := (hmem n').mp (houter ▸ mem_cons_of_mem _ hn')
      exact ⟨hnode, hwithin, h.below_of_inside hnode hn (hfirst n' hn')⟩
    · -- Another one would be below the node.
      obtain ⟨hnode, hle, hle'⟩ := (hmem n₀).mp (houter ▸ mem_cons_self)
      obtain ⟨m', hm', hunbound⟩ := h.below_of_inside hn hnode (hfirst n hself)
      have hout := hname.outside m' hm'
      rw [← m'.span_unbound, hunbound, n₀.span_unbound, Token.Outside] at hout
      omega

end Program

/-! ### Classes -/

mutual

theorem Decl.no_class : ∀ d : Decl, d.Plain → ∀ c, .cls c ∉ d.walk fun _ => true
  | .var v, _, c => by simp [Decl.walk, Node.under, Expr.walk_eq_parts]
  | .fn r, h, c => by simp [Decl.walk, Node.under, r.no_class h c]
  | .cls _, h, _ => h.elim

theorem Routine.no_class : ∀ r : Routine, r.Plain → ∀ c, .cls c ∉ r.walkInside fun _ => true
  | ⟨_, _, _, params, decls, body⟩, h, c => by
    simp [Routine.walkInside, Expr.walk_eq_parts, no_class_decls decls h.2.2 c]

theorem no_class_decls : ∀ ds : List Decl, AllPlain ds → ∀ c, .cls c ∉ walkDecls (fun _ => true) ds
  | [], _, _ => not_mem_nil
  | d :: ds, h, c => by simp [walkDecls, d.no_class h.1 c, no_class_decls ds h.2 c]

end

theorem no_class_methods {ms : List Method} (h : ∀ m ∈ ms, m.routine.Plain) (c : ClassDecl) :
    .cls c ∉ walkMethods (fun _ => true) ms := by
  induction ms with
  | nil => exact not_mem_nil
  | cons m ms ih =>
    obtain ⟨r, _⟩ := m
    obtain ⟨hr, hms⟩ := forall_mem_cons.mp h
    simp [walkMethods, Method.walk, Node.under, r.no_class hr c, ih hms]

namespace Program

variable {src : Text} {p q : Program} {n : Node} {m : Mention}

/-- Only the classes of a program are nodes that are classes. -/
theorem mem_classes (h : p.Plain) {c : ClassDecl} (hc : .cls c ∈ p.nodes) : c ∈ p.classes := by
  simp only [nodes_eq, Node.below, mem_cons, mem_append, reduceCtorEq, false_or,
    mem_flatMap, no_class_decls p.decls h.2 c, Expr.walk_eq_parts, mem_map, and_false,
    exists_false, or_false] at hc
  obtain ⟨d, hd, hc⟩ := hc
  rw [ClassDecl.walk_eq, Node.under, if_pos rfl] at hc
  simp only [mem_cons, Node.cls.injEq, mem_append, mem_map, reduceCtorEq, and_false,
    exists_false, no_class_methods (h.1 d hd).2 c, or_false] at hc
  exact hc ▸ hd

/-- The entry of a class is that of one of the classes of the program. -/
theorem exists_class_of_records (hp : p.Plain) {name : Text} {e : Entry}
    (he : e.Records p.nodes name) (hkind : e.kind = .cls) :
    ∃ c ∈ p.classes, c.name = name ∧ c.span = e.site := by
  obtain ⟨n, hn, d, hd, hname, hspan, hkind'⟩ := he.declared
  rw [hkind] at hkind'
  cases n <;> cases hd <;> cases hkind'
  exact ⟨_, mem_classes hp hn, hname, hspan⟩

/-- Resolving names leaves the names and the spans of the classes. -/
theorem exists_class_of_mem (hp : p.Plain) {c : ClassDecl}
    (hc : .cls c ∈ (p.resolve {}).program.nodes) :
    ∃ c' ∈ p.classes, c'.name = c.name ∧ c'.span = c.span := by
  obtain ⟨n, hn, hunbound⟩ := IsReading.exists_unbound (p.nodes_resolve {}) hc
  cases n with
  | cls c' =>
    obtain ⟨_, _, _, _, _, _, _⟩ := c
    obtain ⟨_, _, _, _, _, _, _⟩ := c'
    simp only [Node.unbound, ClassDecl.unbound, Node.cls.injEq, ClassDecl.mk.injEq] at hunbound
    exact ⟨_, mem_classes hp hn, hunbound.2.1, hunbound.1⟩
  | _ => cases hunbound

/-- Without scope errors no two classes have the same name. -/
theorem span_eq_of_name (hp : p.Plain) (hclean : (p.resolve {}).errors = []) {c c' : ClassDecl}
    (hc : c ∈ p.classes) (hc' : c' ∈ p.classes) (hname : c'.name = c.name) : c'.span = c.span := by
  obtain ⟨info, hinfo, hsite⟩ := (settled hp hclean).2.2 c hc
  obtain ⟨info', hinfo', hsite'⟩ := (settled hp hclean).2.2 c' hc'
  rw [hname, hinfo] at hinfo'
  cases hinfo'
  exact hsite'.symm.trans hsite

/-- The declaration that an entry is the record of. -/
theorem declarationOf?_of_records (hnodes : q.nodes.map Node.unbound = p.nodes.map Node.unbound)
    {name : Text} {e : Entry} (he : e.Records p.nodes name) :
    (q.declarationOf? (some e)).map Declaration.span = some e.site := by
  obtain ⟨n, hn, d, hd, -, hspan, -⟩ := he.declared
  obtain ⟨n', hn', hunbound⟩ := IsReading.exists_unbound hnodes.symm hn
  have hsome : ∀ n : Node, n.unbound.declaration?.isSome = n.declaration?.isSome := by
    intro n
    cases n <;> rfl
  obtain ⟨d', hd'⟩ : ∃ d', n'.declaration? = some d' := by
    rw [← Option.isSome_iff_exists, ← hsome, hunbound, hsome, hd]
    rfl
  have hspan' : d'.span = e.site := by
    rw [Node.span_of_declaration? hd', ← n'.span_unbound, hunbound, n.span_unbound,
      ← Node.span_of_declaration? hd, hspan]
  have hfound : (q.declarationAt? e.site).isSome := by
    rw [declarationAt?, List.find?_isSome]
    exact ⟨d', mem_filterMap.mpr ⟨n', hn', hd'⟩, decide_eq_true hspan'⟩
  obtain ⟨found, hfound⟩ := Option.isSome_iff_exists.mp hfound
  show (q.declarationAt? e.site).map _ = _
  rw [hfound]
  exact congrArg some (of_decide_eq_true (List.find?_some hfound :))

end Program

/-! ### Meanings -/

/-- The span of the declaration that a name in a node stands for: the node itself if it declares the
name, the class of the name in a type, and otherwise what the name was resolved to. -/
def Node.Denotes (classes : List ClassDecl) (n : Node) (m : Mention) (site : Span) : Prop :=
  match m.part with
  | .declared => site = n.span
  | .annotated => ∃ c ∈ classes, c.name = m.name ∧ site = c.span
  | part => ∃ e, n.entry? part = some e ∧ site = e.site

/-- What a name in a node stands for, if that can be told. -/
def Node.site? (classes : List ClassDecl) (n : Node) (m : Mention) : Option Span :=
  match m.part with
  | .declared => some n.span
  | .annotated => (classes.find? fun c => c.name = m.name).map ClassDecl.span
  | part => (n.entry? part).map Entry.site

/-- A site that is attached to a node is the declaration that the name in the node denotes. -/
theorem Node.denotes_of_site? {classes : List ClassDecl} {n : Node} {m : Mention} {site : Span}
    (h : n.site? classes m = some site) : n.Denotes classes m site := by
  obtain ⟨part, name⟩ := m
  cases part with
  | declared => exact (Option.some.inj h).symm
  | annotated =>
    obtain ⟨c, hc, rfl⟩ := Option.map_eq_some_iff.mp h
    exact ⟨c, mem_of_find?_eq_some hc, of_decide_eq_true (List.find?_some hc :), rfl⟩
  | _ =>
    obtain ⟨e, he, rfl⟩ := Option.map_eq_some_iff.mp h
    exact ⟨e, he, rfl⟩

/-- A name that cannot be mistaken for another one.  Each of its bytes is taken for a part of a
word, a receiver is not called like the method, and a class in a type not like a declaration around
it that is no class. -/
structure Program.Unmistakable (q : Program) (t : Token) (n : Node) (m : Mention) : Prop where
  bytes : ∀ b ∈ t.literal, Text.isWordByte b
  receiver : m.part = .receiver → ⟨.method, m.name⟩ ∉ n.mentions
  annotated : m.part = .annotated → ∀ n' ∈ q.nodes, t.Within n'.span →
    ⟨.declared, m.name⟩ ∈ n'.mentions → ∃ c, n' = .cls c

/-- There are no types in expressions. -/
theorem Expr.part_ne_annotated {e : Expr} {m : Mention} (h : m ∈ e.mentions) :
    m.part ≠ .annotated := by
  intro hpart
  cases e <;> simp only [mentions, mem_cons, not_mem_nil, or_false] at h
  case send =>
    rcases h with rfl | rfl <;> cases hpart
  all_goals
    subst h
    cases hpart

namespace Node

variable {q : Program} {n : Node} {name : Text} {m : Mention}

theorem part_of_mem_annotation {a : Annotation} (h : m ∈ a.mentions) : m.part = .annotated := by
  unfold Annotation.mentions at h
  split at h
  · rw [mem_singleton.mp h]
  · cases h

/-- A node that declares a name means itself by it. -/
theorem meaning?_of_declared (h : ⟨.declared, name⟩ ∈ n.mentions) :
    ∃ d, n.meaning? q name = some d ∧ d.span = n.span := by
  have hown : ∀ {own : Text} {a : Annotation},
      ⟨.declared, name⟩ ∈ (⟨.declared, own⟩ :: a.mentions : List Mention) → own = name := by
    intro own a hmem
    rcases mem_cons.mp hmem with heq | hmem
    · cases heq
      rfl
    · cases part_of_mem_annotation hmem
  cases n with
  | program => cases h
  | cls c =>
    obtain rfl : name = c.name := by simpa [mentions] using h
    exact ⟨.cls c, by simp [meaning?], rfl⟩
  | field f => exact ⟨.field f, by simp [meaning?, declaration?, Declaration.name, hown h], rfl⟩
  | method x => exact ⟨.method x, by simp [meaning?, declaration?, Declaration.name, hown h], rfl⟩
  | fn r => exact ⟨.fn r, by simp [meaning?, declaration?, Declaration.name, hown h], rfl⟩
  | var v => exact ⟨.var v, by simp [meaning?, declaration?, Declaration.name, hown h], rfl⟩
  | par x => exact ⟨.par x, by simp [meaning?, declaration?, Declaration.name, hown h], rfl⟩
  | expr e => cases e <;> simp [mentions, Expr.mentions] at h

/-- A node means by a name what the name was resolved to. -/
theorem meaning?_of_entry? {e : Entry} (hm : m ∈ n.mentions) (he : n.entry? m.part = some e)
    (hreceiver : m.part = .receiver → ⟨.method, m.name⟩ ∉ n.mentions)
    (hproper : ∀ c, n = .cls c → c.super ≠ some c.name) :
    n.meaning? q m.name = q.declarationOf? (some e) := by
  cases n with
  | cls c =>
    rcases mem_cons.mp hm with rfl | hm
    · cases he
    · obtain ⟨super, hsuper, rfl⟩ := mem_map.mp hm
      rw [Option.mem_toList] at hsuper
      have hne : c.name ≠ super := fun heq => hproper c rfl (heq ▸ hsuper)
      have he : c.superEntry = some e := he
      simp [meaning?, hne, Option.mem_def.mp hsuper, he]
  | expr x =>
    cases x with
    | id _ _ use | call _ _ _ use =>
      obtain rfl := mem_singleton.mp hm
      have he : use.map Use.entry = some e := he
      simp [meaning?, Expr.meaning?, Program.declarationOfUse?, he]
    | new _ _ _ entry =>
      obtain rfl := mem_singleton.mp hm
      have he : entry = some e := he
      simp [meaning?, Expr.meaning?, he]
    | send _ receiver method _ use target =>
      rcases mem_cons.mp hm with rfl | hm
      · have he : use.map Use.entry = some e := he
        have hne : method ≠ receiver := by
          rintro rfl
          exact hreceiver rfl (mem_cons_of_mem _ mem_cons_self)
        simp [meaning?, Expr.meaning?, Program.declarationOfUse?, hne, he]
      · obtain rfl := mem_singleton.mp hm
        have he : target = some e := he
        simp [meaning?, Expr.meaning?, he]
    | _ => cases hm
  | _ => simp [Node.entry?] at he

end Node

namespace Program

variable {src : Text} {p : Program} {n : Node} {m : Mention} {ts : List Token} {t last : Token}

/-- What a node around a class in a type knows of the name. -/
theorem span_of_meaning? (hp : p.Plain) (hclean : (p.resolve {}).errors = []) {c : ClassDecl}
    (hc : c ∈ p.classes) (hne : c.name ≠ []) (hn : n ∈ (p.resolve {}).program.nodes)
    (hexpr : ∀ e, n ≠ .expr e) (hclass : ⟨.declared, c.name⟩ ∈ n.mentions → ∃ c', n = .cls c')
    {d : Declaration} (hd : n.meaning? (p.resolve {}).program c.name = some d) :
    d.span = c.span := by
  cases n with
  | expr e => exact absurd rfl (hexpr e)
  | program => cases hd
  | cls c' =>
    simp only [Node.meaning?] at hd
    split at hd
    · next hname =>
      cases hd
      obtain ⟨c'', hc'', hname', hspan⟩ := exists_class_of_mem hp hn
      exact hspan.symm.trans (span_eq_of_name hp hclean hc hc'' (hname'.trans hname))
    split at hd
    · next hsuper =>
      have hmem : ⟨.super, c.name⟩ ∈ (Node.cls c').mentions := by simp [Node.mentions, hsuper]
      obtain hpart | ⟨e, hbinds⟩ := ((settled hp hclean).1 _ hn).binds _ hmem hne
      · cases hpart
      have hentry : c'.superEntry = some e := hbinds.attached nofun
      have hspan := declarationOf?_of_records (p.nodes_resolve {}) hbinds.records
      rw [← hentry, hd] at hspan
      obtain ⟨c'', hc'', hname, hsite⟩ :=
        exists_class_of_records hp hbinds.records (hbinds.isClass rfl)
      exact (Option.some.inj hspan).trans
        (hsite.symm.trans (span_eq_of_name hp hclean hc hc'' hname))
    · cases hd
  | _ =>
    -- The name would be the declared one.
    simp only [Node.meaning?, Node.declaration?, Option.filter_eq_some_iff, Option.some.injEq,
      decide_eq_true_eq] at hd
    obtain ⟨rfl, hname⟩ := hd
    obtain ⟨c', hc'⟩ := hclass (hname ▸ mem_cons_self)
    cases hc'

/-- A name that is not in a type means to its node what it stands for. -/
theorem span_of_mention (hp : p.Plain) (hclean : (p.resolve {}).errors = [])
    (hn : n ∈ (p.resolve {}).program.nodes) (hm : m ∈ n.mentions) (hne : m.name ≠ [])
    (hpart : m.part ≠ .annotated)
    (hreceiver : m.part = .receiver → ⟨.method, m.name⟩ ∉ n.mentions) :
    ∃ d, n.meaning? (p.resolve {}).program m.name = some d ∧ n.Denotes p.classes m d.span := by
  have hsettled := (settled hp hclean).1 n hn
  obtain hdeclared | ⟨e, hbinds⟩ := hsettled.binds m hm hne
  · obtain ⟨part, name⟩ := m
    cases hdeclared
    obtain ⟨d, hd, hspan⟩ := Node.meaning?_of_declared hm
    exact ⟨d, hd, hspan⟩
  · have hentry := hbinds.attached hpart
    have hmeaning := Node.meaning?_of_entry? (q := (p.resolve {}).program) hm hentry hreceiver
      hsettled.proper
    obtain ⟨d, hd, hspan⟩ := Option.map_eq_some_iff.mp
      (declarationOf?_of_records (p.nodes_resolve {}) hbinds.records)
    refine ⟨d, hmeaning.trans hd, ?_⟩
    unfold Node.Denotes
    split
    · next hdeclared =>
      rw [hdeclared] at hentry
      cases n <;> simp [Node.entry?] at hentry
    · next hannotated => exact absurd hannotated hpart
    · exact ⟨e, hentry, hspan⟩

/-- From every place in a name the same nodes are asked for it. -/
theorem declarationAt?_of_name (hp : parse src = .ok p) (hts : Token.scan src = ts ++ [last])
    (ht : t ∈ ts) (hn : n ∈ (p.resolve {}).program.nodes) (hname : t.Names n m)
    (hbytes : ∀ b ∈ t.literal, Text.isWordByte b) {a : Analysis}
    (ha : a.program = some (p.resolve {}).program) {k : Nat} (hk : k ≤ t.literal.length) :
    ∃ outer, (∀ n' ∈ outer, n' ∈ (p.resolve {}).program.nodes ∧ t.Within n'.span ∧
        ∃ m' ∈ n'.below, m'.unbound = n.unbound) ∧
      Document.declarationAt? ⟨src, a⟩ (Place.ofPosition (t.pos.forward k)) =
        ((n :: outer).findSome? fun n => n.meaning? (p.resolve {}).program m.name).or
          ((p.resolve {}).program.declarationOf?
            ((a.context.classes.get? m.name).map ClassInfo.entry)) := by
  have hreading : IsReading src (p.resolve {}).program := .of_parse hp (.inr ⟨{}, rfl⟩)
  obtain ⟨_, hfits⟩ := Token.fits_of_mem hts ht
  obtain ⟨hne, hliteral⟩ := hfits.literal (Token.inner_of_scan hts t ht)
  have hjoins : Token.Joins false ts false := by
    obtain ⟨p', ts', last', hp', hts', -, hscript, -⟩ | ⟨d, hd, -⟩ := parse_cases src
    · obtain ⟨rfl, -⟩ := append_inj' (hts.symm.trans hts') rfl
      exact hscript.joins
    · cases hp.symm.trans hd
  have hword : src.wordAt (Place.ofPosition (t.pos.forward k)) = t.literal :=
    Text.wordAt_eq hfits.placed hliteral hbytes
      (fun b hb => Token.beside_name hts hjoins ht hname.kind hb) hk
  have hoffset : src.offsetAt (Place.ofPosition (t.pos.forward k)) = t.pos.offset + k := by
    have hnone : Text.newline ∉ t.literal.take k := fun hmem =>
      absurd (hbytes _ (mem_of_mem_take hmem)) (by decide)
    have htake := take_prefix k t.literal
    have hplaced := hfits.placed.forward (htake.trans hliteral) hnone
    rw [length_take_of_le hk] at hplaced
    exact hplaced.offsetAt_eq
  obtain ⟨outer, houter, hnodes⟩ := hreading.enclosing_of_names hts ht hn hname
    (Nat.le_add_right _ k) (Nat.add_le_add_left hk _)
  refine ⟨outer, hnodes, ?_⟩
  have hsome : m.name.isEmpty = false := by
    rw [← hname.literal, isEmpty_eq_false_iff]
    exact hne
  unfold Document.declarationAt? Document.program?
  simp only [ha, Option.bind_eq_bind, Option.bind_some, hword, hoffset, houter, hname.literal,
    hsome, Bool.false_eq_true, if_false]
  cases List.findSome? (fun n => n.meaning? (p.resolve {}).program m.name) (n :: outer) <;> rfl

/-- What is found for a name from every place in it. -/
theorem exists_site (hp : parse src = .ok p) (hclean : (p.resolve {}).errors = [])
    (hts : Token.scan src = ts ++ [last]) (ht : t ∈ ts) (hn : n ∈ (p.resolve {}).program.nodes)
    (hm : m ∈ n.mentions) (hname : t.Names n m) (h : (p.resolve {}).program.Unmistakable t n m) :
    ∃ site, n.Denotes p.classes m site ∧ ∀ {a : Analysis} {k : Nat},
      a.program = some (p.resolve {}).program → a.context = (p.resolve {}).context →
      k ≤ t.literal.length →
        (Document.declarationAt? ⟨src, a⟩ (Place.ofPosition (t.pos.forward k))).map
          Declaration.span = some site := by
  have hplain := plain_of_parse hp
  have hne := (IsReading.of_parse hp (.inr ⟨{}, rfl⟩)).name_ne_nil hn hm
  by_cases hpart : m.part = .annotated
  · -- The nodes around the name that know it know the class.
    obtain hdeclared | ⟨e, hbinds⟩ := ((settled hplain hclean).1 n hn).binds m hm hne
    · cases hdeclared.symm.trans hpart
    obtain ⟨c, hc, hcname, -⟩ :=
      exists_class_of_records hplain hbinds.records (hbinds.isClass (by rw [hpart]; rfl))
    have hdenotes : n.Denotes p.classes m c.span := by
      simp only [Node.Denotes, hpart]
      exact ⟨c, hc, hcname, rfl⟩
    refine ⟨c.span, hdenotes, fun {a k} ha hcontext hk => ?_⟩
    obtain ⟨outer, houter, hfound⟩ := declarationAt?_of_name hp hts ht hn hname h.bytes ha hk
    obtain ⟨info, hinfo, hsite⟩ := (settled hplain hclean).2.2 c hc
    rw [hfound, ← hcname, hcontext, hinfo]
    have hself : ∀ e, n ≠ .expr e := by
      rintro e rfl
      exact Expr.part_ne_annotated hm hpart
    have hexpr : ∀ n' ∈ n :: outer, ∀ e, n' ≠ .expr e := by
      refine forall_mem_cons.mpr ⟨hself, ?_⟩
      rintro n' hn' e rfl
      obtain ⟨-, -, m', hm', hunbound⟩ := houter _ hn'
      rw [Node.below, walkArgs_eq_parts] at hm'
      obtain ⟨e', -, rfl⟩ := mem_map.mp hm'
      cases n with
      | expr e => exact hself e rfl
      | _ => cases hunbound
    cases hsome : (n :: outer).findSome? fun n => n.meaning? (p.resolve {}).program c.name with
    | none =>
      exact (declarationOf?_of_records (p.nodes_resolve {})
        ((settled hplain hclean).2.1 _ _ hinfo).1).trans (congrArg some hsite)
    | some d =>
      obtain ⟨n', hn', hd⟩ := exists_of_findSome?_eq_some hsome
      obtain ⟨hnode, hwithin⟩ : n' ∈ (p.resolve {}).program.nodes ∧ t.Within n'.span := by
        rcases mem_cons.mp hn' with rfl | hn'
        · exact ⟨hn, hname.within⟩
        · exact ⟨(houter n' hn').1, (houter n' hn').2.1⟩
      exact congrArg some (span_of_meaning? hplain hclean hc (hcname ▸ hne) hnode (hexpr n' hn')
        (hcname ▸ h.annotated hpart n' hnode hwithin) hd)
  · obtain ⟨d, hd, hdenotes⟩ := span_of_mention hplain hclean hn hm hne hpart h.receiver
    refine ⟨d.span, hdenotes, fun {a k} ha _ hk => ?_⟩
    obtain ⟨outer, -, hfound⟩ := declarationAt?_of_name hp hts ht hn hname h.bytes ha hk
    rw [hfound, List.findSome?_cons, hd]
    rfl

end Program

namespace Editor

variable {src : Text} {p : Program}

/-- **A name leads to its declaration.**  The identifiers of a text without scope errors are, one
by one, the names in the nodes of its program.  From every place in such a name and from both of
its ends, the declaration that the name stands for is found, unless it can be mistaken for another
one. -/
theorem definition_of_name (hp : Program.parse src = .ok p) (hclean : (p.resolve {}).errors = []) :
    ∃ ts last, Token.scan src = ts ++ [last] ∧
      List.Forall₂ (fun t (x : Node × Mention) => t.literal = x.2.name ∧ t.Within x.1.span ∧
          ((p.resolve {}).program.Unmistakable t x.1 x.2 →
            ∃ site, x.1.Denotes p.classes x.2 site ∧
              ∀ (s : Editor) (uri : Text), ∀ k ≤ t.literal.length,
                (s.update uri src).value.2.definition? uri (Place.ofPosition (t.pos.forward k)) =
                  some ⟨uri, Range.ofSpan site⟩))
        (Token.names ts) ((p.resolve {}).program.nodes.flatMap fun n => n.mentions.map (n, ·)) := by
  obtain ⟨ts, last, hts, hnames⟩ :=
    (Program.IsReading.of_parse hp (.inr ⟨{}, rfl⟩)).mentioned
  refine ⟨ts, last, hts, ?_⟩
  obtain ⟨hlength, hnames⟩ := forall₂_iff_zip.mp hnames
  refine forall₂_iff_zip.mpr ⟨hlength, ?_⟩
  rintro t ⟨n, m⟩ hmem
  obtain ⟨ht, hx⟩ := of_mem_zip hmem
  obtain ⟨n, hn, hx⟩ := mem_flatMap.mp hx
  obtain ⟨m, hm, heq⟩ := mem_map.mp hx
  cases heq
  have hname := hnames hmem
  refine ⟨hname.literal, hname.within, fun h => ?_⟩
  obtain ⟨site, hdenotes, hfound⟩ :=
    Program.exists_site hp hclean hts (mem_of_mem_filter ht) hn hm hname h
  refine ⟨site, hdenotes, fun s uri k hk => ?_⟩
  have hdocument : (s.update uri src).value.2.documents.get? uri =
      some ⟨src, p.analyse.value⟩ := by
    have hvalue : (Document.ofText src).value = ⟨src, p.analyse.value⟩ := by
      simp only [Document.ofText, Logged.map, analyse, hp]
    exact (Table.get?_put_self _ _ _).trans (congrArg some hvalue)
  obtain ⟨hprogram, hcontext⟩ := p.resolved_analyse
  obtain ⟨d, hd, hspan⟩ := Option.map_eq_some_iff.mp (hfound hprogram hcontext hk)
  rw [definition?, hdocument, Option.bind_some, hd, Option.map_some, hspan]

/-- A parameter with the name of a variable. -/
def hidingText : Text := "let var x:int = 1; fun f:int (x:int) x; in f(x);"

/-- A name in a function leads to the parameter and not to the variable of the same name. -/
theorem definition_of_name_hiding : ∃ p, Program.parse hidingText = .ok p ∧
    (p.resolve {}).errors = [] ∧ ∀ (s : Editor) (uri : Text),
      (s.update uri hidingText).value.2.definition? uri ⟨0, 38⟩ = some ⟨uri, ⟨0, 30⟩, ⟨0, 35⟩⟩ := by
  obtain ⟨p, hp, hall⟩ := exists_ok_of_any (x := Program.parse hidingText)
    (q := fun p => (p.resolve {}).errors.isEmpty &&
      ((p.resolve {}).program.nodes.flatMap fun n => n.mentions.map (n, ·))[3]?.any fun x =>
        x.2.part = .variable && (Node.entry? x.1 .variable).any fun e =>
          Range.ofSpan e.site = ⟨⟨0, 30⟩, ⟨0, 35⟩⟩) (by decide +kernel)
  simp only [Bool.and_eq_true, List.isEmpty_iff, Option.any_eq_true, decide_eq_true_eq] at hall
  obtain ⟨hclean, x, hx, hpart, e, he, hsite⟩ := hall
  obtain ⟨ts, last, hts, hnames⟩ := definition_of_name hp hclean
  have htoken : (Token.names ts)[3]? = some ⟨.identifier, "x", ⟨37, 1, 38⟩⟩ := by
    have hlast : ts = (Token.scan hidingText).dropLast := by rw [hts, dropLast_concat]
    rw [hlast]
    decide +kernel
  obtain ⟨-, -, hfound⟩ := (forall₂_iff_zip.mp hnames).2
    (mem_of_getElem? (List.getElem?_zip_eq_some.mpr ⟨htoken, hx⟩))
  obtain ⟨site, hdenotes, hfound⟩ := hfound
    ⟨by decide +kernel, fun h => absurd (hpart.symm.trans h) nofun,
      fun h => absurd (hpart.symm.trans h) nofun⟩
  obtain ⟨e', he', rfl⟩ : ∃ e', Node.entry? x.1 .variable = some e' ∧ site = e'.site := by
    simpa only [Node.Denotes, hpart] using hdenotes
  cases he.symm.trans he'
  refine ⟨p, hp, hclean, fun s uri => ?_⟩
  rw [← hsite]
  exact hfound s uri 1 (by decide)

/-- The `i`-th name of a text without scope errors is mistaken: the place where it starts does not
lead to its declaration. -/
def Mistaken (src : Text) (i : Nat) : Prop :=
  ∃ p, Program.parse src = .ok p ∧ (p.resolve {}).errors = [] ∧
    ∃ t x site, (Token.names (Token.scan src))[i]? = some t ∧
      ((p.resolve {}).program.nodes.flatMap fun n => n.mentions.map (n, ·))[i]? = some x ∧
      x.1.Denotes p.classes x.2 site ∧
      (({} : Editor).update [] src).value.2.definition? [] (Place.ofPosition t.pos) ≠
        some ⟨[], Range.ofSpan site⟩

/-- How to see that a name is mistaken. -/
theorem mistaken_of_any {src : Text} {i : Nat}
    (h : (Program.parse src).toOption.any fun p => (p.resolve {}).errors.isEmpty &&
      (Token.names (Token.scan src))[i]?.any fun t =>
        ((p.resolve {}).program.nodes.flatMap fun n => n.mentions.map (n, ·))[i]?.any fun x =>
          (x.1.site? p.classes x.2).any fun site =>
            (({} : Editor).update [] src).value.2.definition? [] (Place.ofPosition t.pos) ≠
              some ⟨[], Range.ofSpan site⟩) : Mistaken src i := by
  obtain ⟨p, hp, h⟩ := exists_ok_of_any h
  simp only [Bool.and_eq_true, List.isEmpty_iff, Option.any_eq_true, decide_eq_true_eq] at h
  obtain ⟨hclean, t, ht, x, hx, site, hsite, hne⟩ := h
  exact ⟨p, hp, hclean, t, x, site, ht, hx, Node.denotes_of_site? hsite, hne⟩

/-- A receiver is mistaken for a method of the same name, a class in a type for a variable of the
same name, and a letter outside of ASCII is not taken for a part of a word. -/
theorem definition_mistaken :
    Mistaken "let class A () { fun a:int () 1; } var a:A = new A(); in a.a();" 5 ∧
    Mistaken "let class A () {} fun f:int () let var A:A = null; in 1; in f();" 3 ∧
    Mistaken "let var é:int = 1; in é;" 1 :=
  ⟨mistaken_of_any (by decide +kernel), mistaken_of_any (by decide +kernel),
    mistaken_of_any (by decide +kernel)⟩

end Editor

end Foolscap
