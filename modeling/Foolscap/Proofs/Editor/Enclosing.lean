import Foolscap.Editor.Document
import Foolscap.Proofs.Tree.Readings

/-!
# The nodes around an offset

The search for the nodes around an offset goes on below a node only if the node reaches the offset.
In a tree that was read from a text it finds all the same what a search through the whole tree
finds, because every node lies inside of those above it.
-/

namespace Foolscap

open List

/-! ### Searches -/

section

variable {c : Node → Bool}

/-- A node passes a test if one below it does. -/
def Node.Nested (c : Node → Bool) (ns : List Node) : Prop := ∀ n ∈ ns, ∀ m ∈ n.below, c m → c n

namespace Node.Nested

variable {ns ms : List Node}

theorem left (h : Nested c (ns ++ ms)) : Nested c ns := fun n hn => h n (mem_append_left _ hn)

theorem right (h : Nested c (ns ++ ms)) : Nested c ms := fun n hn => h n (mem_append_right _ hn)

theorem tail {n : Node} (h : Nested c (Node.under (fun _ => true) n ns)) : Nested c ns :=
  (forall_mem_cons.mp h).2

theorem head {n : Node} (h : Nested c (Node.under (fun _ => true) n ns))
    (hbelow : n.below = ns := by rfl) : ∀ m ∈ ns, c m → c n :=
  hbelow ▸ h n mem_cons_self

end Node.Nested

/-- Below a node that does not pass there is nothing to be found. -/
theorem Node.filter_under {n : Node} {below below' : List Node}
    (h : below.filter c = below'.filter c) (hn : ∀ m ∈ below', c m → c n) :
    (under c n below).filter c = (under (fun _ => true) n below').filter c := by
  by_cases hc : c n
  · simp [under, hc, h]
  · have hnone : below'.filter c = [] :=
      filter_eq_nil_iff.mpr fun m hm hcm => hc (hn m hm hcm)
    simp [under, hc, hnone]

open Node (filter_under Nested)

mutual

/-- Of the nodes of an expression, those around a place are found without looking below a node that
is not. -/
theorem Expr.filter_walk : ∀ e : Expr, Nested c (e.walk fun _ => true) →
    (e.walk c).filter c = (e.walk fun _ => true).filter c
  | .missing, _ | .int _ _, _ | .bool _ _, _ | .null _, _ | .id _ _ _, _ => rfl
  | .binary _ _ l r, h => by
    refine filter_under ?_ (h.head (by simp [Node.below, Expr.operands, walkArgs]))
    rw [filter_append, filter_append, l.filter_walk h.tail.left, r.filter_walk h.tail.right]
  | .not _ e, h | .print _ e, h =>
    filter_under (e.filter_walk h.tail) (h.head (by simp [Node.below, Expr.operands, walkArgs]))
  | .cond _ i t e, h => by
    refine filter_under ?_ (h.head (by simp [Node.below, Expr.operands, walkArgs]))
    simp only [filter_append, i.filter_walk h.tail.left.left, t.filter_walk h.tail.left.right,
      e.filter_walk h.tail.right]
  | .call _ _ as _, h | .new _ _ as _, h | .send _ _ _ as _ _, h =>
    filter_under (filter_walkArgs as h.tail) h.head

theorem filter_walkArgs : ∀ es : List Expr, Nested c (walkArgs (fun _ => true) es) →
    (walkArgs c es).filter c = (walkArgs (fun _ => true) es).filter c
  | [], _ => rfl
  | e :: es, h => by
    simp only [walkArgs, filter_append, e.filter_walk h.left, filter_walkArgs es h.right]

end

mutual

theorem Decl.filter_walk : ∀ d : Decl, Nested c (d.walk fun _ => true) →
    (d.walk c).filter c = (d.walk fun _ => true).filter c
  | .var v, h => filter_under (v.value.filter_walk h.tail) h.head
  | .fn r, h => filter_under (r.filter_walkInside h.tail) h.head
  | .cls c, h => c.filter_walk h

theorem Routine.filter_walkInside : ∀ r : Routine, Nested c (r.walkInside fun _ => true) →
    (r.walkInside c).filter c = (r.walkInside fun _ => true).filter c
  | ⟨_, _, _, _, decls, body⟩, h => by
    simp only [Routine.walkInside, filter_append, filter_walkDecls decls h.left.right,
      body.filter_walk h.right]

theorem ClassDecl.filter_walk : ∀ d : ClassDecl, Nested c (d.walk fun _ => true) →
    (d.walk c).filter c = (d.walk fun _ => true).filter c
  | ⟨_, _, _, _, methods, _, _⟩, h => by
    refine filter_under ?_ h.head
    rw [filter_append, filter_append, filter_walkMethods methods h.tail.right]

theorem filter_walkDecls : ∀ ds : List Decl, Nested c (walkDecls (fun _ => true) ds) →
    (walkDecls c ds).filter c = (walkDecls (fun _ => true) ds).filter c
  | [], _ => rfl
  | d :: ds, h => by
    simp only [walkDecls, filter_append, d.filter_walk h.left, filter_walkDecls ds h.right]

theorem filter_walkMethods : ∀ ms : List Method, Nested c (walkMethods (fun _ => true) ms) →
    (walkMethods c ms).filter c = (walkMethods (fun _ => true) ms).filter c
  | [], _ => rfl
  | ⟨r, _⟩ :: ms, h => by
    rw [walkMethods, walkMethods, filter_append, filter_append,
      filter_walkMethods ms h.right]
    exact congrArg (· ++ _) (filter_under (r.filter_walkInside h.left.tail) h.left.head)

end

/-- A search that leaves out what is below a node that does not pass. -/
theorem Program.filter_walk (p : Program) (h : Nested c p.nodes) :
    (p.walk c).filter c = p.nodes.filter c := by
  have hclasses : ∀ cs : List ClassDecl, Nested c (cs.flatMap (ClassDecl.walk fun _ => true)) →
      (cs.flatMap (ClassDecl.walk c)).filter c =
        (cs.flatMap (ClassDecl.walk fun _ => true)).filter c := by
    intro cs hcs
    induction cs with
    | nil => rfl
    | cons d cs ih =>
      rw [flatMap_cons] at hcs
      rw [flatMap_cons, flatMap_cons, filter_append, filter_append,
        d.filter_walk hcs.left, ih hcs.right]
  refine filter_under ?_ h.head
  simp only [filter_append, hclasses p.classes h.tail.left.left,
    filter_walkDecls p.decls h.tail.left.right, p.body.filter_walk h.tail.right]

end

/-! ### Around an offset -/

namespace Program

variable {src : Text} {p q : Program} {n m : Node} {offset : Nat}

namespace IsReading

/-- A node reaches what those below it reach. -/
theorem contains (h : IsReading src q) (hn : n ∈ q.nodes) (hm : m ∈ n.below)
    (hc : m.span.contains offset) : n.span.contains offset := by
  obtain ⟨hstart, hstop, -⟩ := h.inside hn hm
  simp only [Span.contains, Bool.and_eq_true, decide_eq_true_eq] at hc ⊢
  omega

/-- The nodes around an offset are all those that reach it. -/
theorem enclosing_eq (h : IsReading src q) (offset : Nat) :
    q.enclosing offset = (q.nodes.filter fun n => n.span.contains offset).reverse :=
  congrArg List.reverse (q.filter_walk fun _ hn _ hm => h.contains hn hm)

/-- Of two nodes around an offset the second one is not below the first one. -/
theorem pairwise_enclosing (h : IsReading src q) (offset : Nat) :
    (q.enclosing offset).Pairwise fun n m => m ≠ n ∧ m ∉ n.below := by
  have hprecedes : q.nodes.Pairwise fun n m => n.span.Precedes m.span :=
    pairwise_map.mp h.precedes
  rw [h.enclosing_eq, pairwise_reverse]
  refine (hprecedes.filter _).imp_of_mem fun {m n} hm hn hmn => ?_
  have hm := (mem_filter.mp hm).1
  have hn := (mem_filter.mp hn).1
  obtain ⟨-, -, hlt⟩ := h.ends hm
  refine ⟨?_, fun hbelow => ?_⟩
  · rintro rfl
    rcases hmn with hinside | hle
    · have hproper := hinside.proper
      omega
    · omega
  · obtain ⟨hstart, hstop, hproper⟩ := h.inside hn hbelow
    rcases hmn with ⟨hstart', hstop', -⟩ | hle <;> omega

end IsReading

/-- **The search around an offset loses nothing.**  In a program that was read from a text, with
its names resolved or not, no two nodes are the same and every node lies in those above it.  The
nodes around an offset are all nodes of the program that reach it, in reverse order, and whatever a
node is below comes behind it. -/
theorem enclosing_complete (hp : parse src = .ok p)
    (hq : q = p ∨ ∃ context, q = (p.resolve context).program) :
    q.nodes.Nodup ∧
    (∀ n ∈ q.nodes, ∀ m ∈ n.below,
      n.span.start.offset ≤ m.span.start.offset ∧ m.span.stop.offset ≤ n.span.stop.offset) ∧
    ∀ offset, q.enclosing offset = (q.nodes.filter fun n => n.span.contains offset).reverse ∧
      ∀ front n back, q.enclosing offset = front ++ n :: back →
        ∀ m ∈ q.nodes, n ∈ m.below → m ∈ back := by
  have h : IsReading src q := .of_parse hp hq
  have hnodup : q.nodes.Nodup :=
    (List.pairwise_map.mp h.nodup).imp fun hne heq => hne (congrArg Node.span heq)
  refine ⟨hnodup, fun n hn m hm => ?_, fun offset => ⟨h.enclosing_eq offset, ?_⟩⟩
  · obtain ⟨hstart, hstop, -⟩ := h.inside hn hm
    exact ⟨hstart, hstop⟩
  intro front n back heq m hm hbelow
  have hpairwise := h.pairwise_enclosing offset
  have hmem : ∀ n, n ∈ q.enclosing offset ↔ n ∈ q.nodes ∧ n.span.contains offset := by
    intro n
    rw [h.enclosing_eq, List.mem_reverse, List.mem_filter]
  have hn : n ∈ q.enclosing offset := heq ▸ List.mem_append_right _ List.mem_cons_self
  have hm' := (hmem m).mpr ⟨hm, h.contains hm hbelow ((hmem n).mp hn).2⟩
  -- Neither before it nor at its place, since it is not above itself.
  rw [heq] at hm' hpairwise
  rcases List.mem_append.mp hm' with hfront | hback
  · exact absurd hbelow ((List.pairwise_append.mp hpairwise).2.2 m hfront n List.mem_cons_self).2
  · rcases List.mem_cons.mp hback with rfl | hback
    · have hproper := (h.inside hm hbelow).proper
      omega
    · exact hback

/-- A method in a class, the body of which is three deep. -/
def nestedText : Text := "let class A () { fun f:int (x:int) !(x + 1); } in new A();"

/-- At an offset where one operand ends there are six nodes, from the operand to the program. -/
theorem enclosing_complete_nested : ∃ p, parse nestedText = .ok p ∧
    (p.enclosing 38).length = 6 ∧
      p.enclosing 38 = (p.nodes.filter fun n => n.span.contains 38).reverse := by
  obtain ⟨p, hp, hlength⟩ := exists_ok_of_any (x := parse nestedText)
    (q := fun p => (p.enclosing 38).length = 6) (by decide +kernel)
  exact ⟨p, hp, of_decide_eq_true hlength, ((enclosing_complete hp (.inl rfl)).2.2 38).1⟩

end Program

end Foolscap
