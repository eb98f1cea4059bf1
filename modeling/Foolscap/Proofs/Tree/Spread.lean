import Foolscap.Proofs.Tree.Grammar
import Foolscap.Proofs.Tree.Nodes
import Mathlib.Data.List.Forall2

/-!
# Trees over tokens

The nodes of a tree that was read from tokens.  Each of them was read from a block of tokens that
follow each other, and the nodes below it from blocks inside, so the spans of the nodes are nested.
The tokens of a block that are in no block inside are the node's own, and the identifiers among them
are the names that the node holds.
-/

namespace Foolscap

open Grammar List

/-! ### Names in nodes -/

/-- What a name in a node is there for. -/
inductive Part where
  | declared | annotated | super | variable | callee | constructed | receiver | method
  deriving DecidableEq, Repr

/-- A name that a node holds. -/
structure Mention where
  part : Part
  name : Text
  deriving DecidableEq, Repr

/-- The class that a written type names. -/
def Annotation.mentions (a : Annotation) : List Mention :=
  match a.ty with
  | .ref name => [⟨.annotated, name⟩]
  | _ => []

/-- The names that an expression itself holds. -/
def Expr.mentions : Expr → List Mention
  | id _ name _ => [⟨.variable, name⟩]
  | call _ name _ _ => [⟨.callee, name⟩]
  | new _ name _ _ => [⟨.constructed, name⟩]
  | send _ receiver method _ _ _ => [⟨.receiver, receiver⟩, ⟨.method, method⟩]
  | _ => []

/-- The names that a node itself holds, in the order in which they are written. -/
def Node.mentions : Node → List Mention
  | program _ => []
  | cls c => ⟨.declared, c.name⟩ :: c.super.toList.map (⟨.super, ·⟩)
  | field f => ⟨.declared, f.name⟩ :: f.annotation.mentions
  | method m => ⟨.declared, m.routine.name⟩ :: m.routine.ret.mentions
  | fn r => ⟨.declared, r.name⟩ :: r.ret.mentions
  | var v => ⟨.declared, v.name⟩ :: v.annotation.mentions
  | par p => ⟨.declared, p.name⟩ :: p.annotation.mentions
  | expr e => e.mentions

/-- The names that a node holds are written in it, so it still holds them when nothing is attached
to it. -/
theorem Node.mentions_unbound (n : Node) : n.unbound.mentions = n.mentions := by
  cases n with
  | cls c =>
    obtain ⟨_, _, _, _, _, _, _⟩ := c
    rfl
  | method m =>
    obtain ⟨⟨_, _, _, _, _, _⟩, _⟩ := m
    rfl
  | fn r =>
    obtain ⟨_, _, _, _, _, _⟩ := r
    rfl
  | expr e => cases e <;> rfl
  | program _ => rfl
  | field _ => rfl
  | var _ => rfl
  | par _ => rfl

/-! ### Spans -/

namespace Span

/-- A span lies inside another one and is not all of it. -/
structure Inside (s outer : Span) : Prop where
  start_le : outer.start.offset ≤ s.start.offset
  stop_le : s.stop.offset ≤ outer.stop.offset
  proper : outer.start.offset < s.start.offset ∨ s.stop.offset < outer.stop.offset

/-- The next span of a walk lies inside or behind. -/
def Precedes (s s' : Span) : Prop := s'.Inside s ∨ s.stop.offset ≤ s'.start.offset

end Span

namespace Token

/-- The identifiers among some tokens. -/
def names (ts : List Token) : List Token := ts.filter fun t => t.kind = .identifier

theorem names_append (ts us : List Token) : names (ts ++ us) = names ts ++ names us :=
  filter_append ..

/-- There is no identifier among some tokens. -/
def Nameless (ts : List Token) : Prop := ∀ t ∈ ts, t.kind ≠ .identifier

theorem Nameless.nil : Nameless [] := fun _ ht => absurd ht not_mem_nil

theorem Nameless.append {ts us : List Token} (h : Nameless ts) (h' : Nameless us) :
    Nameless (ts ++ us) := forall_mem_append.mpr ⟨h, h'⟩

theorem names_eq_nil {ts : List Token} (h : Nameless ts) : names ts = [] := by
  rw [names, filter_eq_nil_iff]
  intro t ht hname
  exact h t ht (of_decide_eq_true hname)

/-- The span from the first to the last of some tokens. -/
def spanOf (ts : List Token) : Span := ⟨(ts.headD default).pos, (ts.getLastD default).stop⟩

/-- A token lies in a span. -/
structure Within (t : Token) (s : Span) : Prop where
  start_le : s.start.offset ≤ t.pos.offset
  stop_le : t.stop.offset ≤ s.stop.offset

/-- A token lies outside of a span, and there may be nothing between them. -/
def Outside (t : Token) (s : Span) : Prop :=
  t.stop.offset ≤ s.start.offset ∨ s.stop.offset ≤ t.pos.offset

/-- A token does not even touch a span. -/
def Apart (t : Token) (s : Span) : Prop :=
  t.stop.offset < s.start.offset ∨ s.stop.offset < t.pos.offset

/-- Tokens as they stand in a text: one behind the other, and none of them is empty. -/
structure Ordered (ts : List Token) : Prop where
  pairwise : ts.Pairwise fun t u => t.stop.offset ≤ u.pos.offset
  nonempty : ∀ t ∈ ts, t.pos.offset < t.stop.offset

namespace Ordered

variable {ts us own : List Token} {t u : Token}

theorem left (h : Ordered (ts ++ us)) : Ordered ts :=
  ⟨(pairwise_append.mp h.pairwise).1, fun t ht => h.nonempty t (mem_append_left _ ht)⟩

theorem right (h : Ordered (ts ++ us)) : Ordered us :=
  ⟨(pairwise_append.mp h.pairwise).2.1, fun t ht => h.nonempty t (mem_append_right _ ht)⟩

theorem le (h : Ordered (ts ++ us)) (ht : t ∈ ts) (hu : u ∈ us) : t.stop.offset ≤ u.pos.offset :=
  (pairwise_append.mp h.pairwise).2.2 t ht u hu

/-- A token lies in the span of tokens that it is one of. -/
theorem within (h : Ordered own) (ht : t ∈ own) : t.Within (spanOf own) := by
  constructor
  · cases own with
    | nil => cases ht
    | cons first rest =>
      show first.pos.offset ≤ t.pos.offset
      rcases mem_cons.mp ht with rfl | ht
      · exact Nat.le_refl _
      · have hle := (pairwise_cons.mp h.pairwise).1 t ht
        have hlt := h.nonempty first mem_cons_self
        omega
  · obtain rfl | ⟨front, last, rfl⟩ := own.eq_nil_or_concat
    · cases ht
    · rw [concat_eq_append] at h ht
      rw [spanOf, concat_eq_append, getLastD_concat]
      rcases mem_append.mp ht with ht | ht
      · have hle := h.le ht (mem_singleton_self last)
        have hlt := h.nonempty last (by simp)
        exact Nat.le_trans hle (Nat.le_of_lt hlt)
      · obtain rfl := mem_singleton.mp ht
        exact Nat.le_refl _

/-- Tokens start with one of them and end with one of them. -/
theorem spanOf_ends (h : Ordered own) (hne : own ≠ []) :
    (∃ t ∈ own, (spanOf own).start = t.pos) ∧ (∃ t ∈ own, (spanOf own).stop = t.stop) ∧
      (spanOf own).start.offset < (spanOf own).stop.offset := by
  refine ⟨?_, ?_, ?_⟩
  · cases own with
    | nil => exact absurd rfl hne
    | cons first rest => exact ⟨first, mem_cons_self, rfl⟩
  · obtain rfl | ⟨front, last, rfl⟩ := own.eq_nil_or_concat
    · exact absurd rfl hne
    · refine ⟨last, by simp, ?_⟩
      rw [spanOf, concat_eq_append, getLastD_concat]
  · obtain ⟨t, ht⟩ := exists_mem_of_ne_nil own hne
    have hwithin := h.within ht
    have hlt := h.nonempty t ht
    exact Nat.lt_of_le_of_lt hwithin.start_le (Nat.lt_of_lt_of_le hlt hwithin.stop_le)

/-- An identifier in front of some tokens does not touch them if the last token in front of them is
none. -/
theorem lt_start (h : Ordered (ts ++ own)) (hne : own ≠ [])
    (hlast : ∀ t ∈ ts.getLast?, t.kind ≠ .identifier) (ht : t ∈ ts) (hname : t.kind = .identifier) :
    t.stop.offset < (spanOf own).start.offset := by
  obtain ⟨⟨first, hfirst, hstart⟩, -⟩ := h.right.spanOf_ends hne
  obtain rfl | ⟨front, last, rfl⟩ := ts.eq_nil_or_concat
  · cases ht
  rw [concat_eq_append] at h hlast ht
  rw [List.getLast?_concat] at hlast
  rcases mem_append.mp ht with hfront | hend
  · have hle := h.left.le hfront (mem_singleton_self last)
    have hlt := h.left.nonempty last (by simp)
    have hle' := h.le (mem_append_right front (mem_singleton_self last)) hfirst
    rw [hstart]
    omega
  · rw [mem_singleton.mp hend] at hname
    exact absurd hname (hlast last rfl)

/-- An identifier behind some tokens does not touch them if the first token behind them is none. -/
theorem stop_lt (h : Ordered (own ++ ts)) (hne : own ≠ [])
    (hfirst : ∀ t ∈ ts.head?, t.kind ≠ .identifier) (ht : t ∈ ts) (hname : t.kind = .identifier) :
    (spanOf own).stop.offset < t.pos.offset := by
  obtain ⟨-, ⟨last, hlast, hstop⟩, -⟩ := h.left.spanOf_ends hne
  cases ts with
  | nil => cases ht
  | cons first rest =>
    rcases mem_cons.mp ht with rfl | hrest
    · exact absurd hname (hfirst _ rfl)
    · have hle := (pairwise_cons.mp h.right.pairwise).1 t hrest
      have hlt := h.right.nonempty first mem_cons_self
      have hle' := h.le hlast mem_cons_self
      rw [hstop]
      omega

end Ordered

end Token

open Token

/-! ### The layout of nodes -/

/-- A node was read from a block of tokens: it has their span, and an expression is what the grammar
derives from them. -/
structure Node.Fills (own : List Token) (n : Node) : Prop where
  nonempty : own ≠ []
  span : n.span = spanOf own
  expr : ∀ e, n = .expr e → ExprOf 0 own e.phrase ∧ e.unbound = e

/-- A node that is no expression. -/
theorem Node.Fills.of_ne {own : List Token} {n : Node} (hown : own ≠ [])
    (hspan : n.span = spanOf own) (hn : ∀ e, n ≠ .expr e := by simp) : n.Fills own :=
  ⟨hown, hspan, fun e he => absurd he (hn e)⟩

/-- Nodes are laid out over tokens, and some of the tokens are left to what is around them.  A node
has tokens left to itself, and the identifiers among them are the names that it holds.  No
identifier is right beside the block of a node, and none of those left is behind it. -/
inductive Spread : List Token → List Token → List Node → Prop where
  | loose (ts : List Token) : Spread ts ts []
  | join {l l' sep ts us : List Token} {ns ms : List Node} (left : Spread l ts ns)
      (right : Spread l' us ms) (before : ∀ t ∈ (ts ++ sep).getLast?, t.kind ≠ .identifier)
      (behind : ∀ t ∈ (sep ++ us).head?, t.kind ≠ .identifier)
      (order : ns = [] ∨ Nameless (sep ++ l')) :
      Spread (l ++ (sep ++ l')) (ts ++ (sep ++ us)) (ns ++ ms)
  | tree {l own : List Token} {n : Node} (fills : n.Fills own) (some : l ≠ [])
      (held : (names l).map Token.literal = n.mentions.map Mention.name)
      (inner : Spread l own n.below) : Spread [] own (n :: n.below)

/-- An identifier is a name that a node holds: it is in the node, but in none below it. -/
structure Token.Names (t : Token) (n : Node) (m : Mention) : Prop where
  kind : t.kind = .identifier
  literal : t.literal = m.name
  within : t.Within n.span
  outside : ∀ n' ∈ n.below, t.Outside n'.span

namespace Spread

variable {l ts : List Token} {ns : List Node}

section

variable (h : Spread l ts ns)

include h

/-- The tokens left are some of the tokens. -/
theorem subset : ∀ t ∈ l, t ∈ ts := by
  induction h with
  | loose ts => exact fun _ => id
  | join _ _ _ _ _ ihl ihr =>
    intro t ht
    rcases mem_append.mp ht with ht | ht
    · exact mem_append_left _ (ihl t ht)
    · rcases mem_append.mp ht with ht | ht
      · exact mem_append_right _ (mem_append_left _ ht)
      · exact mem_append_right _ (mem_append_right _ (ihr t ht))
  | tree => nofun

/-- Every node has a block of tokens, without an identifier right beside it. -/
theorem exists_block {n : Node} (hn : n ∈ ns) :
    ∃ a own b, ts = a ++ (own ++ b) ∧ n.Fills own ∧
      (∀ t ∈ a.getLast?, t.kind ≠ .identifier) ∧ ∀ t ∈ b.head?, t.kind ≠ .identifier := by
  induction h with
  | loose => cases hn
  | @join l l' sep ts us ns ms _ _ before behind _ ihl ihr =>
    rcases mem_append.mp hn with hn | hn
    · obtain ⟨a, own, b, rfl, hfills, ha, hb⟩ := ihl hn
      refine ⟨a, own, b ++ (sep ++ us), by simp only [append_assoc], hfills, ha, ?_⟩
      cases b with
      | nil => exact behind
      | cons t b => exact hb
    · obtain ⟨a, own, b, rfl, hfills, ha, hb⟩ := ihr hn
      refine ⟨ts ++ sep ++ a, own, b, by simp only [append_assoc], hfills, ?_, hb⟩
      obtain rfl | ⟨front, last, rfl⟩ := a.eq_nil_or_concat
      · rwa [append_nil]
      · rw [concat_eq_append, List.getLast?_concat] at ha
        rwa [concat_eq_append, ← append_assoc, List.getLast?_concat]
  | @tree l own n fills _ _ _ ih =>
    rcases mem_cons.mp hn with rfl | hn
    · exact ⟨[], own, [], by simp, fills, nofun, nofun⟩
    · exact ih hn

variable (ho : Ordered ts)

include ho

/-- A node starts where one of the tokens does and stops where one does. -/
theorem ends {n : Node} (hn : n ∈ ns) :
    (∃ t ∈ ts, n.span.start = t.pos) ∧ (∃ t ∈ ts, n.span.stop = t.stop) ∧
      n.span.start.offset < n.span.stop.offset := by
  obtain ⟨a, own, b, rfl, hfills, -, -⟩ := h.exists_block hn
  obtain ⟨⟨t, ht, hstart⟩, ⟨u, hu, hstop⟩, hlt⟩ := ho.right.left.spanOf_ends hfills.nonempty
  have hmem : ∀ v ∈ own, v ∈ a ++ (own ++ b) :=
    fun v hv => mem_append_right _ (mem_append_left _ hv)
  rw [hfills.span]
  exact ⟨⟨t, hmem t ht, hstart⟩, ⟨u, hmem u hu, hstop⟩, hlt⟩

/-- An identifier is in a node, or it does not touch it. -/
theorem within_or_apart {t : Token} (ht : t ∈ ts) (hname : t.kind = .identifier) {n : Node}
    (hn : n ∈ ns) : t.Within n.span ∨ t.Apart n.span := by
  obtain ⟨a, own, b, rfl, hfills, ha, hb⟩ := h.exists_block hn
  rw [hfills.span]
  rcases mem_append.mp ht with ht | ht
  · rw [← append_assoc] at ho
    exact .inr (.inl (ho.left.lt_start hfills.nonempty ha ht hname))
  · rcases mem_append.mp ht with ht | ht
    · exact .inl (ho.right.left.within ht)
    · exact .inr (.inr (ho.right.stop_lt hfills.nonempty hb ht hname))

/-- The tokens left are in none of the nodes. -/
theorem outside {t : Token} (ht : t ∈ l) {n : Node} (hn : n ∈ ns) : t.Outside n.span := by
  induction h with
  | loose => cases hn
  | @join l l' sep ts us ns ms left right _ _ _ ihl ihr =>
    have hright : t ∈ sep ++ l' → t ∈ sep ++ us := by
      rw [mem_append, mem_append]
      exact Or.imp_right (right.subset t)
    rcases mem_append.mp hn with hn | hn
    · rcases mem_append.mp ht with ht | ht
      · exact ihl ho.left ht hn
      · obtain ⟨-, ⟨u, hu, hstop⟩, -⟩ := left.ends ho.left hn
        rw [Outside, hstop]
        exact .inr (ho.le hu (hright ht))
    · obtain ⟨⟨u, hu, hstart⟩, -⟩ := right.ends ho.right.right hn
      rw [← append_assoc] at ht ho
      rcases mem_append.mp ht with ht | ht
      · rw [Outside, hstart]
        refine .inl (ho.le ?_ hu)
        exact mem_append.mpr ((mem_append.mp ht).imp_left (left.subset t))
      · exact ihr ho.right ht hn
  | tree => cases ht

/-- A node lies inside of those above it. -/
theorem inside {n m : Node} (hn : n ∈ ns) (hm : m ∈ n.below) : m.span.Inside n.span := by
  induction h with
  | loose => cases hn
  | join _ _ _ _ _ ihl ihr =>
    rcases mem_append.mp hn with hn | hn
    · exact ihl ho.left hn
    · exact ihr ho.right.right hn
  | @tree l own n' fills hsome _ inner ih =>
    rcases mem_cons.mp hn with rfl | hn
    · obtain ⟨⟨t, ht, hstart⟩, ⟨u, hu, hstop⟩, hlt⟩ := inner.ends ho hm
      -- A token of the node's own is outside of the node below, so that is not all of it.
      obtain ⟨v, hv⟩ := exists_mem_of_ne_nil l hsome
      have hout := inner.outside ho hv hm
      obtain ⟨hin, hin'⟩ := ho.within (inner.subset v hv)
      have hvlt := ho.nonempty v (inner.subset v hv)
      have hstart' := (ho.within ht).start_le
      have hstop' := (ho.within hu).stop_le
      rw [← hstart] at hstart'
      rw [← hstop] at hstop'
      rw [fills.span]
      refine ⟨hstart', hstop', ?_⟩
      unfold Outside at hout
      omega
    · exact ih ho hn

/-- A node that lies inside of another one is below it. -/
theorem below_of_inside {n m : Node} (hn : n ∈ ns) (hm : m ∈ ns) (hinside : m.span.Inside n.span) :
    m ∈ n.below := by
  obtain ⟨hstart, hstop, hproper⟩ := hinside
  obtain ⟨-, -, hlt⟩ := h.ends ho hm
  induction h with
  | loose => cases hn
  | @join l l' sep ts us ns ms left right _ _ _ ihl ihr =>
    have hapart : ∀ n ∈ ns, ∀ m ∈ ms, n.span.stop.offset ≤ m.span.start.offset := by
      intro n hn m hm
      obtain ⟨-, ⟨t, ht, hstop⟩, -⟩ := left.ends ho.left hn
      obtain ⟨⟨u, hu, hstart⟩, -⟩ := right.ends ho.right.right hm
      rw [hstop, hstart]
      exact ho.le ht (mem_append_right _ hu)
    rcases mem_append.mp hn with hn | hn <;> rcases mem_append.mp hm with hm | hm
    · exact ihl ho.left hn hm
    · have hle := hapart n hn m hm
      omega
    · have hle := hapart m hm n hn
      omega
    · exact ihr ho.right.right hn hm
  | @tree l own n' fills hsome held inner ih =>
    rcases mem_cons.mp hn with rfl | hn <;> rcases mem_cons.mp hm with rfl | hm
    · omega
    · exact hm
    · obtain ⟨hstart', hstop', hproper'⟩ :=
        inside (.tree fills hsome held inner) ho mem_cons_self hn
      omega
    · exact ih ho hn hm

/-- The spans of the nodes are nested: the next one in the walk lies inside or behind. -/
theorem precedes : (ns.map Node.span).Pairwise Span.Precedes := by
  induction h with
  | loose => exact .nil
  | @join l l' sep ts us ns ms left right _ _ _ ihl ihr =>
    rw [map_append, pairwise_append]
    refine ⟨ihl ho.left, ihr ho.right.right, ?_⟩
    intro s hs s' hs'
    obtain ⟨n, hn, rfl⟩ := mem_map.mp hs
    obtain ⟨m, hm, rfl⟩ := mem_map.mp hs'
    obtain ⟨-, ⟨t, ht, hstop⟩, -⟩ := left.ends ho.left hn
    obtain ⟨⟨u, hu, hstart⟩, -⟩ := right.ends ho.right.right hm
    rw [Span.Precedes, hstop, hstart]
    exact .inr (ho.le ht (mem_append_right _ hu))
  | @tree l own n fills hsome held inner ih =>
    refine pairwise_cons.mpr ⟨?_, ih ho⟩
    intro s hs
    obtain ⟨m, hm, rfl⟩ := mem_map.mp hs
    exact .inl (inside (.tree fills hsome held inner) ho mem_cons_self hm)

end

/-- Lists are related element by element if some view of them is the same. -/
theorem forall₂_of_map_eq {α β γ : Type} {R : α → β → Prop} {f : α → γ} {g : β → γ} {as : List α}
    {bs : List β} (h : as.map f = bs.map g) (hR : ∀ a ∈ as, ∀ b, f a = g b → R a b) :
    List.Forall₂ R as bs := by
  induction as generalizing bs with
  | nil =>
    obtain rfl : bs = [] := by simpa using h.symm
    exact .nil
  | cons a as ih =>
    cases bs with
    | nil => cases h
    | cons b bs =>
      obtain ⟨hab, h⟩ := List.cons.inj h
      exact .cons (hR a mem_cons_self b hab)
        (ih h (forall_mem_cons.mp hR).2)

/-- The identifiers that are not left over are the names that the nodes hold, in order. -/
theorem mentioned (h : Spread l ts ns) (ho : Ordered ts) :
    ∃ ws, names ts = names l ++ ws ∧
      List.Forall₂ (fun t (x : Node × Mention) => t.Names x.1 x.2) ws
        (ns.flatMap fun n => n.mentions.map (n, ·)) := by
  induction h with
  | loose ts => exact ⟨[], (append_nil _).symm, .nil⟩
  | @join l l' sep ts us ns ms _ _ _ _ order ihl ihr =>
    obtain ⟨ws, hws, hnames⟩ := ihl ho.left
    obtain ⟨ws', hws', hnames'⟩ := ihr ho.right.right
    refine ⟨ws ++ ws', ?_, ?_⟩
    · simp only [names_append, hws, hws', append_assoc]
      rcases order with rfl | hnameless
      · obtain rfl : ws = [] := by simpa using hnames
        rfl
      · obtain ⟨hsep, hl'⟩ := forall_mem_append.mp hnameless
        rw [names_eq_nil hsep, names_eq_nil hl']
        rfl
    · rw [flatMap_append]
      exact rel_append hnames hnames'
  | @tree l own n fills _ held inner ih =>
    obtain ⟨ws, hws, hnames⟩ := ih ho
    refine ⟨names l ++ ws, hws, ?_⟩
    rw [flatMap_cons]
    refine rel_append ?_ hnames
    rw [forall₂_map_right_iff]
    refine forall₂_of_map_eq held fun t ht m hliteral => ?_
    obtain ⟨hmem, hkind⟩ := mem_filter.mp ht
    refine ⟨of_decide_eq_true hkind, hliteral, ?_, fun n' hn' => inner.outside ho hmem hn'⟩
    rw [fills.span]
    exact ho.within (inner.subset t hmem)

end Spread

end Foolscap
