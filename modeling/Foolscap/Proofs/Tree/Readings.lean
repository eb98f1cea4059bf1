import Foolscap.Proofs.Token.Stretches
import Foolscap.Proofs.Tree.Parsed

/-!
# Programs read from a text

What is known of the places in a program that was read from a text.  Resolving names changes neither
the nodes of the program nor their spans, so all of it holds of the resolved program as well.
-/

namespace Foolscap

open Token List

/-- The tokens of a text stand one behind the other. -/
theorem Token.ordered_scan {src : Text} {ts : List Token} {last : Token}
    (h : scan src = ts ++ [last]) : Ordered ts := by
  have hfits : ∀ front t back, scan src = front ++ t :: back → t.Fits src (endOf 0 front) :=
    fun front t back hts => fits_scanFor (.start src) (.nil _) hts
  have hpairwise := (ordered_of_fits hfits).2
  rw [h, pairwise_append] at hpairwise
  refine ⟨hpairwise.1, fun t ht => ?_⟩
  obtain ⟨start, hfit⟩ := fits_of_mem h ht
  have hpos := length_pos_iff.mpr (hfit.literal (inner_of_scan h t ht)).1
  exact Nat.lt_add_of_pos_right hpos

/-- Whether an identifier is a name that a node holds does not depend on bindings. -/
theorem Token.names_unbound {t : Token} {n : Node} {x : Mention} :
    t.Names n.unbound x ↔ t.Names n x := by
  have hbelow : (∀ n' ∈ n.unbound.below, t.Outside n'.span) ↔
      ∀ n' ∈ n.below, t.Outside n'.span := by
    simp [Node.below_unbound]
  constructor
  · rintro ⟨hkind, hliteral, hwithin, houtside⟩
    exact ⟨hkind, hliteral, n.span_unbound ▸ hwithin, hbelow.mp houtside⟩
  · rintro ⟨hkind, hliteral, hwithin, houtside⟩
    exact ⟨hkind, hliteral, n.span_unbound.symm ▸ hwithin, hbelow.mpr houtside⟩

namespace Program

/-- A program was read from a text, and its names may have been resolved since. -/
def IsReading (src : Text) (q : Program) : Prop :=
  ∃ p, parse src = .ok p ∧ q.nodes.map Node.unbound = p.nodes.map Node.unbound

namespace IsReading

variable {src : Text} {p q : Program} {n m : Node}

theorem of_parse (h : parse src = .ok p)
    (hq : q = p ∨ ∃ context, q = (p.resolve context).program) : IsReading src q := by
  rcases hq with rfl | ⟨context, rfl⟩
  · exact ⟨q, h, rfl⟩
  · exact ⟨p, h, p.nodes_resolve context⟩

/-- The nodes that were read, and the tokens that they are laid out over. -/
theorem laid (h : IsReading src q) : ∃ ts last ns, scan src = ts ++ [last] ∧ Ordered ts ∧
    Spread [] ts ns ∧ q.nodes.map Node.unbound = ns.map Node.unbound := by
  obtain ⟨p, hp, hnodes⟩ := h
  obtain ⟨ts, last, hts, -, hlaid⟩ := laid_of_parse hp
  exact ⟨ts, last, p.nodes, hts, ordered_scan hts, hlaid, hnodes⟩

/-- Nodes that differ in their bindings only have the same spans. -/
theorem map_span {ns ms : List Node} (h : ns.map Node.unbound = ms.map Node.unbound) :
    ns.map Node.span = ms.map Node.span := by
  have hspan : Node.span ∘ Node.unbound = Node.span := funext Node.span_unbound
  rw [← hspan, ← map_map, ← map_map, h]

theorem exists_unbound {ns ms : List Node} (h : ns.map Node.unbound = ms.map Node.unbound)
    (hn : n ∈ ns) : ∃ n' ∈ ms, n'.unbound = n.unbound :=
  mem_map.mp (h ▸ mem_map_of_mem hn)

variable (h : IsReading src q)

include h

/-- A node starts and stops at places of the text, and is not empty. -/
theorem ends (hn : n ∈ q.nodes) :
    n.span.start.At src ∧ n.span.stop.At src ∧ n.span.start.offset < n.span.stop.offset := by
  obtain ⟨ts, last, ns, hts, ho, hlaid, hnodes⟩ := h.laid
  obtain ⟨n', hn', hunbound⟩ := exists_unbound hnodes hn
  rw [← n.span_unbound, ← hunbound, n'.span_unbound]
  obtain ⟨⟨t, ht, hstart⟩, ⟨u, hu, hstop⟩, hlt⟩ := hlaid.ends ho hn'
  obtain ⟨_, hfits⟩ := fits_of_mem hts ht
  exact ⟨hstart ▸ hfits.placed, hstop ▸ stop_at hts hu, hlt⟩

/-- A node lies inside of those above it. -/
theorem inside (hn : n ∈ q.nodes) (hm : m ∈ n.below) : m.span.Inside n.span := by
  obtain ⟨ts, last, ns, -, ho, hlaid, hnodes⟩ := h.laid
  obtain ⟨n', hn', hunbound⟩ := exists_unbound hnodes hn
  have hbelow : n.below.map Node.unbound = n'.below.map Node.unbound := by
    rw [← Node.below_unbound, ← Node.below_unbound, hunbound]
  obtain ⟨m', hm', hunbound'⟩ := exists_unbound hbelow hm
  rw [← n.span_unbound, ← m.span_unbound, ← hunbound, ← hunbound', n'.span_unbound,
    m'.span_unbound]
  exact hlaid.inside ho hn' hm'

/-- A node that lies inside of another one is below it. -/
theorem below_of_inside (hn : n ∈ q.nodes) (hm : m ∈ q.nodes) (hinside : m.span.Inside n.span) :
    ∃ m' ∈ n.below, m'.unbound = m.unbound := by
  obtain ⟨ts, last, ns, -, ho, hlaid, hnodes⟩ := h.laid
  obtain ⟨n', hn', hunbound⟩ := exists_unbound hnodes hn
  obtain ⟨m', hm', hunbound'⟩ := exists_unbound hnodes hm
  rw [← n.span_unbound, ← m.span_unbound, ← hunbound, ← hunbound', n'.span_unbound,
    m'.span_unbound] at hinside
  have hbelow := hlaid.below_of_inside ho hn' hm' hinside
  rw [← mem_map, ← Node.below_unbound, ← hunbound, Node.below_unbound, ← hunbound']
  exact mem_map_of_mem hbelow

/-- An identifier is in a node, or it does not touch it. -/
theorem within_or_apart {ts : List Token} {last t : Token} (hts : scan src = ts ++ [last])
    (ht : t ∈ ts) (hname : t.kind = .identifier) (hn : n ∈ q.nodes) :
    t.Within n.span ∨ t.Apart n.span := by
  obtain ⟨ts', last', ns, hts', ho, hlaid, hnodes⟩ := h.laid
  obtain ⟨rfl, -⟩ := append_inj' (hts.symm.trans hts') rfl
  obtain ⟨n', hn', hunbound⟩ := exists_unbound hnodes hn
  rw [← n.span_unbound, ← hunbound, n'.span_unbound]
  exact hlaid.within_or_apart ho ht hname hn'

/-- The next node of the walk lies inside or behind. -/
theorem precedes : (q.nodes.map Node.span).Pairwise Span.Precedes := by
  obtain ⟨ts, last, ns, -, ho, hlaid, hnodes⟩ := h.laid
  exact map_span hnodes ▸ hlaid.precedes ho

/-- No two nodes have the same span. -/
theorem nodup : (q.nodes.map Node.span).Nodup := by
  refine List.Pairwise.imp_of_mem ?_ h.precedes
  rintro s _ hs - hprecedes rfl
  obtain ⟨n, hn, rfl⟩ := mem_map.mp hs
  obtain ⟨-, -, hlt⟩ := h.ends hn
  rcases hprecedes with hinside | hle
  · have hproper := hinside.proper
    omega
  · omega

/-- The identifiers of the text are the names that the nodes hold, in order. -/
theorem mentioned : ∃ ts last, scan src = ts ++ [last] ∧
    List.Forall₂ (fun t (x : Node × Mention) => t.Names x.1 x.2) (Token.names ts)
      (q.nodes.flatMap fun n => n.mentions.map (n, ·)) := by
  obtain ⟨ts, last, ns, hts, ho, hlaid, hnodes⟩ := h.laid
  obtain ⟨ws, hws, hnames⟩ := hlaid.mentioned ho
  obtain rfl : Token.names ts = ws := hws
  refine ⟨ts, last, hts, ?_⟩
  -- Nodes that differ in their bindings only hold the same names.
  let f : Node × Mention → Node × Mention := fun x => (x.1.unbound, x.2)
  have hmap : ∀ ns : List Node, (ns.flatMap fun n => n.mentions.map (n, ·)).map f =
      (ns.map Node.unbound).flatMap fun n => n.mentions.map (n, ·) := by
    intro ns
    rw [map_flatMap, flatMap_map]
    congr 1
    funext n
    rw [n.mentions_unbound, map_map]
    rfl
  have hmoved : List.Forall₂ (fun t (x : Node × Mention) => t.Names x.1 x.2) (Token.names ts)
      ((ns.flatMap fun n => n.mentions.map (n, ·)).map f) :=
    forall₂_map_right_iff.mpr (hnames.imp fun _ _ => Token.names_unbound.mpr)
  rw [hmap, ← hnodes, ← hmap, forall₂_map_right_iff] at hmoved
  exact hmoved.imp fun _ _ => Token.names_unbound.mp

/-- Every name that a node holds is an identifier of the text. -/
theorem exists_token (hn : n ∈ q.nodes) {x : Mention} (hx : x ∈ n.mentions) :
    ∃ ts last t, scan src = ts ++ [last] ∧ t ∈ ts ∧ t.Names n x := by
  obtain ⟨ts, last, hts, hnames⟩ := h.mentioned
  have hmem : (n, x) ∈ q.nodes.flatMap fun n => n.mentions.map (n, ·) :=
    mem_flatMap.mpr ⟨n, hn, mem_map_of_mem hx⟩
  obtain ⟨i, hi, hget⟩ := getElem_of_mem hmem
  have hi' : i < (Token.names ts).length := hnames.length_eq ▸ hi
  have hname := hnames.get hi' hi
  rw [get_eq_getElem, get_eq_getElem, hget] at hname
  exact ⟨ts, last, _, hts, mem_of_mem_filter (getElem_mem hi'), hname⟩

/-- Names are not empty. -/
theorem name_ne_nil (hn : n ∈ q.nodes) {x : Mention} (hx : x ∈ n.mentions) : x.name ≠ [] := by
  obtain ⟨ts, last, t, hts, ht, hname⟩ := h.exists_token hn hx
  obtain ⟨start, hfits⟩ := fits_of_mem hts ht
  rw [← hname.literal]
  exact (hfits.literal (inner_of_scan hts t ht)).1

end IsReading

end Program

end Foolscap
