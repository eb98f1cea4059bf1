import Foolscap.Proofs.Assembly.Emission
import Foolscap.Proofs.Assembly.Linked
import Mathlib.Data.List.Perm.Basic

/-!
# Labels in generated code

Every label is marked once, and every label that is used is marked.

## Design Notes

The code of a function and the reference to it are far apart, so what is closed is what was
generated in a stretch of time, wherever it ends up.  The order of lines does not matter to that.
-/

namespace Foolscap

open List

/-- The next numbers of branch targets and of routines. -/
structure Numbers where
  branch : Nat
  routine : Nat

/-- A label that was taken while the numbers went from some to others. -/
def Label.Between (lo hi : Numbers) : Label → Prop
  | branch n => lo.branch ≤ n ∧ n < hi.branch
  | routine n => lo.routine ≤ n ∧ n < hi.routine

variable {lo hi : Numbers} {l : Label} {g : Emitter}

theorem Label.Between.mono {lo' hi' : Numbers} (h : l.Between lo hi)
    (hlo : lo'.branch ≤ lo.branch ∧ lo'.routine ≤ lo.routine)
    (hhi : hi.branch ≤ hi'.branch ∧ hi.routine ≤ hi'.routine) : l.Between lo' hi' := by
  cases l with
  | branch n => exact ⟨Nat.le_trans hlo.1 h.1, Nat.lt_of_lt_of_le h.2 hhi.1⟩
  | routine n => exact ⟨Nat.le_trans hlo.2 h.1, Nat.lt_of_lt_of_le h.2 hhi.2⟩

theorem Label.Between.disjoint {mid : Numbers} (h : l.Between lo mid) (h' : l.Between mid hi) :
    False := by
  cases l with
  | branch n | routine n => exact absurd h.2 (Nat.not_lt.mpr h'.1)

namespace Line

/-- A line that uses known labels only. -/
def Refers (known : List Label) : Line → Prop
  | pushLabel s => ∃ l ∈ known, s = some l
  | branch _ l => l ∈ known
  | op _ | push _ | mark _ => True

variable {known : List Label} {x : Line}

theorem Refers.mono {known' : List Label} (h : x.Refers known) (hsub : known ⊆ known') :
    x.Refers known' := by
  cases x with
  | pushLabel s =>
    obtain ⟨l, hl, hs⟩ := h
    exact ⟨l, hsub hl, hs⟩
  | branch b l => exact hsub h
  | _ => trivial

theorem marks_eq_filterMap (ls : List Line) : marks ls = ls.filterMap fun
    | mark l => some l
    | _ => none := by
  induction ls with
  | nil => rfl
  | cons x ls ih => cases x <;> simp [marks, ih]

theorem marks_perm {ls ks : List Line} (h : ls.Perm ks) : (marks ls).Perm (marks ks) := by
  rw [marks_eq_filterMap, marks_eq_filterMap]
  exact h.filterMap _

/-- A line without a label. -/
def isUnlabelled : Line → Bool
  | op _ | push _ => true
  | pushLabel _ | branch _ _ | mark _ => false

theorem refers_of_isUnlabelled (h : x.isUnlabelled) : x.Refers known := by
  cases x with
  | pushLabel s => cases h
  | branch b l => cases h
  | _ => trivial

/-- Lines that mark, once each, labels taken while the numbers went from some to others, and that
use only what they mark. -/
structure Closed (lo hi : Numbers) (ls : List Line) : Prop where
  le : lo.branch ≤ hi.branch ∧ lo.routine ≤ hi.routine
  between : ∀ l ∈ marks ls, l.Between lo hi
  nodup : (marks ls).Nodup
  refers : ∀ x ∈ ls, x.Refers (marks ls)

namespace Closed

variable {lo mid hi : Numbers} {ls ks : List Line}

/-- Code that uses the numbers of labels from one to another, followed by code that goes on from
there.  No label is marked in both. -/
theorem append (h : Closed lo mid ls) (h' : Closed mid hi ks) : Closed lo hi (ls ++ ks) := by
  refine ⟨⟨Nat.le_trans h.le.1 h'.le.1, Nat.le_trans h.le.2 h'.le.2⟩, ?_, ?_, ?_⟩
  · intro l hl
    rw [marks_append, mem_append] at hl
    rcases hl with hl | hl
    · exact (h.between l hl).mono ⟨Nat.le_refl _, Nat.le_refl _⟩ h'.le
    · exact (h'.between l hl).mono h.le ⟨Nat.le_refl _, Nat.le_refl _⟩
  · rw [marks_append, nodup_append]
    refine ⟨h.nodup, h'.nodup, ?_⟩
    rintro l hl _ hl' rfl
    exact (h.between l hl).disjoint (h'.between l hl')
  · intro x hx
    rw [marks_append]
    rcases mem_append.mp hx with hx | hx
    · exact (h.refers x hx).mono (subset_append_left _ _)
    · exact (h'.refers x hx).mono (subset_append_right _ _)

theorem perm (h : Closed lo hi ls) (hp : ls.Perm ks) : Closed lo hi ks := by
  have hmarks := marks_perm hp
  refine ⟨h.le, fun l hl => h.between l (hmarks.mem_iff.mpr hl), hmarks.nodup_iff.mp h.nodup, ?_⟩
  exact fun x hx => (h.refers x (hp.mem_iff.mpr hx)).mono hmarks.subset

/-- Lines without labels. -/
theorem of_unlabelled (n : Numbers) (h : ls.all isUnlabelled) : Closed n n ls := by
  have hall := all_eq_true.mp h
  have hmarks : marks ls = [] := by
    rw [marks_eq_filterMap, filterMap_eq_nil_iff]
    intro x hx
    cases x with
    | mark l => cases hall _ hx
    | _ => rfl
  exact ⟨⟨Nat.le_refl _, Nat.le_refl _⟩, by simp [hmarks], by simp [hmarks],
    fun x hx => refers_of_isUnlabelled (hall x hx)⟩

/-- A reference to what the lines mark. -/
theorem cons_pushLabel (h : Closed lo hi ls) {l : Label} (hl : l ∈ marks ls) :
    Closed lo hi (pushLabel (some l) :: ls) := by
  refine ⟨h.le, h.between, h.nodup, fun x hx => ?_⟩
  rcases mem_cons.mp hx with rfl | hx
  · exact ⟨l, hl, rfl⟩
  · exact h.refers x hx

end Closed

end Line

/-! ### Expressions -/

open Line (Closed)

namespace Code

theorem frame_unlabelled (hops : Nat) : (frame hops).all Line.isUnlabelled := by
  simp [frame, Line.isUnlabelled]

theorem load_unlabelled (u : Use) : (load u).all Line.isUnlabelled := by
  rw [load, all_append, frame_unlabelled]
  rfl

theorem jump_unlabelled (u : Use) :
    (if u.entry.kind = .method then dispatch u.entry.offset
      else callFunction u.entry.offset).all Line.isUnlabelled := by
  split
  · rfl
  · rfl

theorem construct_unlabelled (count : Nat) (offset : Int) :
    (construct count offset).all Line.isUnlabelled := by
  simp [construct, allocate, loadGlobal, bumpHeap, Line.isUnlabelled]

theorem branchToBool_closed (b : Branch) (n r : Nat) :
    Closed ⟨n, r⟩ ⟨n + 2, r⟩ (branchToBool b n) := by
  constructor <;> simp [branchToBool, Line.marks, Line.Refers, Label.Between]

theorem operate_closed (op : BinaryOp) (n r : Nat) :
    Closed ⟨n, r⟩ ⟨(operate op n).2, r⟩ (operate op n).1 := by
  cases op with
  | equal => exact branchToBool_closed .equal n r
  | lessEqual => exact branchToBool_closed .lessEqual n r
  | _ => exact .of_unlabelled _ rfl

variable {n m m' r : Nat}

theorem shortCircuit_closed {decisive : Int} {left right : List Line}
    (hl : Closed ⟨n + 2, r⟩ ⟨m, r⟩ left) (hr : Closed ⟨m, r⟩ ⟨m', r⟩ right) :
    Closed ⟨n, r⟩ ⟨m', r⟩ (shortCircuit decisive n left right) := by
  have hfixed : Closed ⟨n, r⟩ ⟨n + 2, r⟩ [.push decisive, .branch .equal (.branch n),
      .push decisive, .branch .equal (.branch n), .push (1 - decisive),
      .branch .always (.branch (n + 1)), .mark (.branch n), .push decisive,
      .mark (.branch (n + 1))] := by
    constructor <;> simp [Line.marks, Line.Refers, Label.Between]
  refine ((hfixed.append hl).append hr).perm (perm_iff_count.mpr fun x => ?_)
  simp only [shortCircuit, count_append, count_cons, count_nil]
  omega

theorem cond_closed {m'' : Nat} {c e t : List Line} (hc : Closed ⟨n + 2, r⟩ ⟨m, r⟩ c)
    (he : Closed ⟨m, r⟩ ⟨m', r⟩ e) (ht : Closed ⟨m', r⟩ ⟨m'', r⟩ t) :
    Closed ⟨n, r⟩ ⟨m'', r⟩ (c ++ [Line.push 1, .branch .equal (.branch n)] ++ e ++
      [Line.branch .always (.branch (n + 1)), .mark (.branch n)] ++ t ++
      [Line.mark (.branch (n + 1))]) := by
  have hfixed : Closed ⟨n, r⟩ ⟨n + 2, r⟩ [.push 1, .branch .equal (.branch n),
      .branch .always (.branch (n + 1)), .mark (.branch n), .mark (.branch (n + 1))] := by
    constructor <;> simp [Line.marks, Line.Refers, Label.Between]
  refine (((hfixed.append hc).append he).append ht).perm (perm_iff_count.mpr fun x => ?_)
  simp only [count_append, count_cons, count_nil]
  omega

end Code

mutual

/-- The code of an expression is closed. -/
theorem Expr.code_closed (r : Nat) : ∀ (e : Expr) (n : Nat),
    Closed ⟨n, r⟩ ⟨(e.code n).2, r⟩ (e.code n).1
  | .missing, n => by
    rw [Expr.code]
    exact .of_unlabelled _ rfl
  | .binary _ op x y, n => by
    by_cases hop : op ≠ .and ∧ op ≠ .or ∧ op ≠ .greaterEqual
    · rw [Expr.code]
      · exact ((Expr.code_closed r x n).append (Expr.code_closed r y _)).append
          (Code.operate_closed op _ r)
      · exact hop.1
      · exact hop.2.1
      · exact hop.2.2
    · obtain rfl | rfl | rfl : op = .and ∨ op = .or ∨ op = .greaterEqual := by tauto
      all_goals rw [Expr.code]
      · exact Code.shortCircuit_closed (Expr.code_closed r x _) (Expr.code_closed r y _)
      · exact Code.shortCircuit_closed (Expr.code_closed r x _) (Expr.code_closed r y _)
      · exact ((Expr.code_closed r y n).append (Expr.code_closed r x _)).append
          (Code.branchToBool_closed .lessEqual _ r)
  | .not _ e, n => by
    rw [Expr.code]
    exact ((Expr.code_closed r e n).append (.of_unlabelled _ rfl)).append
      (Code.branchToBool_closed .equal _ r)
  | .cond _ c t e, n => by
    rw [Expr.code]
    exact Code.cond_closed (Expr.code_closed r c _) (Expr.code_closed r e _)
      (Expr.code_closed r t _)
  | .print _ e, n => by
    rw [Expr.code]
    exact (Expr.code_closed r e n).append (.of_unlabelled _ rfl)
  | .int _ w, n | .bool _ b, n | .null _, n => by
    rw [Expr.code]
    exact .of_unlabelled _ rfl
  | .id _ _ use, n => by
    cases use with
    | none => rw [Expr.code]; exact .of_unlabelled _ rfl
    | some u => rw [Expr.code]; exact .of_unlabelled _ (Code.load_unlabelled u)
  | .call _ _ as use, n => by
    have hlink : Closed ⟨n, r⟩ ⟨n, r⟩ [.op .lfp] := .of_unlabelled _ rfl
    have hargs := hlink.append (codeArgsLastFirst_closed r as n)
    cases use with
    | none => rw [Expr.code]; exact hargs
    | some u =>
      have hall := (hargs.append (.of_unlabelled _ (Code.frame_unlabelled u.hops))).append
        (.of_unlabelled _ (Code.jump_unlabelled u))
      rw [Expr.code]
      exact hall
  | .new _ _ as entry, n => by
    cases entry with
    | none => rw [Expr.code]; exact codeArgs_closed r as n
    | some e =>
      rw [Expr.code]
      exact (codeArgs_closed r as n).append (.of_unlabelled _ (Code.construct_unlabelled _ _))
  | .send _ _ _ as use target, n => by
    have hlink : Closed ⟨n, r⟩ ⟨n, r⟩ [.op .lfp] := .of_unlabelled _ rfl
    have hargs := hlink.append (codeArgsLastFirst_closed r as n)
    cases use with
    | none => rw [Expr.code]; exact hargs
    | some u =>
      cases target with
      | none => rw [Expr.code]; exact hargs
      | some t =>
        have hdispatch : (Code.dispatch t.offset).all Line.isUnlabelled := rfl
        have hall := (hargs.append (.of_unlabelled _ (Code.load_unlabelled u))).append
          (.of_unlabelled _ hdispatch)
        rw [Expr.code]
        exact hall

theorem codeArgs_closed (r : Nat) : ∀ (es : List Expr) (n : Nat),
    Closed ⟨n, r⟩ ⟨(codeArgs es n).2, r⟩ (codeArgs es n).1
  | [], n => by
    rw [codeArgs]
    exact .of_unlabelled _ rfl
  | e :: es, n => by
    rw [codeArgs]
    exact (Expr.code_closed r e n).append (codeArgs_closed r es _)

theorem codeArgsLastFirst_closed (r : Nat) : ∀ (es : List Expr) (n : Nat),
    Closed ⟨n, r⟩ ⟨(codeArgsLastFirst es n).2, r⟩ (codeArgsLastFirst es n).1
  | [], n => by
    rw [codeArgsLastFirst]
    exact .of_unlabelled _ rfl
  | e :: es, n => by
    rw [codeArgsLastFirst]
    exact (codeArgsLastFirst_closed r es n).append (Expr.code_closed r e _)

end

/-! ### Declarations -/

namespace Emitter

/-- The numbers of the next labels. -/
def numbers (g : Emitter) : Numbers := ⟨g.nextBranch, g.nextRoutine⟩

/-- Some code, together with the routines that were generated with it, is closed. -/
def Adds (g g' : Emitter) (c : List Line) : Prop :=
  ∃ added, g'.routines = g.routines ++ added ∧ Closed g.numbers g'.numbers (c ++ added)

theorem Adds.refl (g : Emitter) : g.Adds g [] :=
  ⟨[], (append_nil _).symm, .of_unlabelled _ rfl⟩

theorem Adds.append {g g' g'' : Emitter} {c c' : List Line} (h : g.Adds g' c)
    (h' : g'.Adds g'' c') : g.Adds g'' (c ++ c') := by
  obtain ⟨added, hroutines, hclosed⟩ := h
  obtain ⟨added', hroutines', hclosed'⟩ := h'
  refine ⟨added ++ added', by rw [hroutines', hroutines, append_assoc],
    (hclosed.append hclosed').perm (perm_iff_count.mpr fun x => ?_)⟩
  simp only [count_append]
  omega

theorem expr_adds (g : Emitter) (e : Expr) : g.Adds (g.expr e).2 (g.expr e).1 := by
  refine ⟨[], (append_nil _).symm, ?_⟩
  rw [append_nil]
  exact Expr.code_closed g.nextRoutine e g.nextBranch

end Emitter

/-- The code around the inside of a routine marks the label of the routine. -/
theorem Code.routine_closed {n : Nat} {inside added : List Line} (d p : Nat)
    (hlo : lo.routine = n + 1) (h : Closed lo hi (inside ++ added)) :
    Closed ⟨lo.branch, n⟩ hi (added ++ routine (.routine n) d p inside) := by
  have hmark : Closed ⟨lo.branch, n⟩ lo [.mark (.routine n)] := by
    constructor <;> simp [Line.marks, Line.Refers, Label.Between, hlo]
  have hrest : Closed lo lo ([Line.op .cfp, .op .lra] ++ ([Line.op .stm] ++
      (List.replicate d (Line.op .pop) ++ ([Line.op .sra, .op .pop] ++
        (List.replicate p (Line.op .pop) ++ [Line.op .sfp, .op .ltm, .op .lra, .op .js]))))) :=
    .of_unlabelled _ (by simp [Line.isUnlabelled])
  refine ((hmark.append hrest).append h).perm (perm_iff_count.mpr fun x => ?_)
  rw [routine]
  simp only [count_append, count_cons, count_nil]
  omega

mutual

theorem Decl.code_adds : ∀ (d : Decl), d.Plain → ∀ g : Emitter, g.Adds (d.code g).2 (d.code g).1
  | .var v, _, g => by
    rw [Decl.code]
    exact g.expr_adds v.value
  | .fn r, hp, g => by
    obtain ⟨added, hroutines, hclosed, hmem⟩ := Routine.emit_adds r hp g
    rw [Decl.code]
    exact ⟨added, hroutines, hclosed.cons_pushLabel hmem⟩
  | .cls _, hp, _ => hp.elim

/-- A routine is generated together with those inside it. -/
theorem Routine.emit_adds : ∀ (r : Routine), r.Plain → ∀ g : Emitter,
    ∃ added, (r.emit g.takeRoutine.1 g.takeRoutine.2).routines = g.routines ++ added ∧
      Closed g.numbers (r.emit g.takeRoutine.1 g.takeRoutine.2).numbers added ∧
      g.takeRoutine.1 ∈ Line.marks added
  | ⟨_, _, _, params, decls, body⟩, hp, g => by
    obtain ⟨added, hroutines, hclosed⟩ :=
      (codeDecls_adds decls hp.2.2 g.takeRoutine.2).append (Emitter.expr_adds _ body)
    rw [Routine.emit]
    refine ⟨_, ?_, Code.routine_closed decls.length params.length rfl hclosed, ?_⟩
    · rw [← append_assoc]
      exact congrArg (· ++ _) hroutines
    · rw [Line.marks_append, mem_append]
      exact .inr mem_cons_self

theorem codeDecls_adds : ∀ (ds : List Decl), AllPlain ds → ∀ g : Emitter,
    g.Adds (codeDecls g ds).2 (codeDecls g ds).1
  | [], _, g => by
    rw [codeDecls]
    exact .refl g
  | d :: ds, hp, g => by
    rw [codeDecls]
    exact (Decl.code_adds d hp.1 g).append (codeDecls_adds ds hp.2 _)

end

/-! ### Classes -/

variable {table : List Slot} {α : Type} {name : Text} {t : Table α} {a : α}

theorem Code.mem_setSlot {slot : Nat} {l' : Label} (h : some l ∈ setSlot table slot l') :
    some l ∈ table ∨ l = l' := by
  rcases mem_or_eq_of_mem_set h with h | h
  · rcases mem_append.mp h with h | h
    · exact .inl h
    · cases eq_of_mem_replicate h
  · exact .inr (Option.some.inj h)

/-- Methods are generated one after the other, and their slots hold their labels. -/
theorem emitMethods_adds (ms : List Method) (hp : ∀ m ∈ ms, m.routine.Plain) (g : Emitter)
    (table : List Slot) :
    ∃ added, (emitMethods g table ms).2.routines = g.routines ++ added ∧
      Closed g.numbers (emitMethods g table ms).2.numbers added ∧
      ∀ l, some l ∈ (emitMethods g table ms).1 → some l ∈ table ∨ l ∈ Line.marks added := by
  induction ms generalizing g table with
  | nil =>
    rw [emitMethods]
    exact ⟨[], (append_nil _).symm, .of_unlabelled _ rfl, fun l hl => .inl hl⟩
  | cons m ms ih =>
    obtain ⟨r, offset⟩ := m
    obtain ⟨added, hroutines, hclosed, hmem⟩ := Routine.emit_adds r (hp _ mem_cons_self) g
    obtain ⟨added', hroutines', hclosed', hslots⟩ := ih
      (forall_mem_cons.mp hp).2 (r.emit g.takeRoutine.1 g.takeRoutine.2)
      (Code.setSlot table offset.toNat g.takeRoutine.1)
    rw [emitMethods]
    refine ⟨added ++ added', by rw [← append_assoc, ← hroutines]; exact hroutines',
      hclosed.append hclosed', fun l hl => ?_⟩
    rw [Line.marks_append, mem_append]
    rcases hslots l hl with hl | hl
    · rcases Code.mem_setSlot hl with hl | rfl
      · exact .inl hl
      · exact .inr (.inl hmem)
    · exact .inr (.inr hl)

/-- The labels in dispatch tables are marked. -/
def Emitter.SlotsMarked (g : Emitter) : Prop :=
  ∀ row ∈ g.dispatch, ∀ l, some l ∈ row.2 → l ∈ Line.marks g.routines

theorem Table.mem_put {row : Text × α} (h : row ∈ t.put name a) : row ∈ t ∨ row = (name, a) := by
  induction t with
  | nil => exact .inr (mem_singleton.mp h)
  | cons first t ih =>
    obtain ⟨n, b⟩ := first
    rw [Table.put_cons] at h
    split at h
    · next hn =>
      rcases mem_cons.mp h with rfl | h
      · exact .inr (by rw [hn])
      · exact .inl (mem_cons_of_mem _ h)
    · rcases mem_cons.mp h with rfl | h
      · exact .inl mem_cons_self
      · exact (ih h).imp_left (mem_cons_of_mem _)

theorem Table.mem_of_get? (h : t.get? name = some a) : (name, a) ∈ t := by
  induction t with
  | nil => cases h
  | cons row t ih =>
    obtain ⟨n, b⟩ := row
    rw [Table.get?_cons] at h
    split at h
    · next hn =>
      cases h
      rw [hn]
      exact mem_cons_self
    · exact mem_cons_of_mem _ (ih h)

theorem Emitter.SlotsMarked.inherited (h : g.SlotsMarked) {super : Option Text}
    (hl : some l ∈ g.inherited super) : l ∈ Line.marks g.routines := by
  cases super with
  | none => cases hl
  | some super =>
    rw [Emitter.inherited] at hl
    cases hget : g.dispatch.get? super with
    | none =>
      rw [hget] at hl
      cases hl
    | some slots =>
      rw [hget] at hl
      exact h (super, slots) (Table.mem_of_get? hget) l hl

/-- The routines of a class are closed, and so is its dispatch table. -/
theorem ClassDecl.code_adds (c : ClassDecl) (hp : ∀ m ∈ c.methods, m.routine.Plain)
    (hg : g.SlotsMarked) : g.Adds (c.code g).2 [] ∧ (c.code g).2.SlotsMarked := by
  obtain ⟨_, name, super, _, ms, _, _⟩ := c
  obtain ⟨added, hroutines, hclosed, hslots⟩ := emitMethods_adds ms hp g (g.inherited super)
  rw [ClassDecl.code]
  refine ⟨⟨added, hroutines, hclosed⟩, fun row hrow l hl => ?_⟩
  dsimp only at hrow ⊢
  rw [hroutines, Line.marks_append, mem_append]
  rw [emitMethods_dispatch ms hp] at hrow
  rcases Table.mem_put hrow with hrow | rfl
  · exact .inl (hg row hrow l hl)
  · exact (hslots l hl).imp_left hg.inherited

theorem codeClasses_adds (cs : List ClassDecl) (hp : ∀ c ∈ cs, ∀ m ∈ c.methods, m.routine.Plain)
    (hg : g.SlotsMarked) : g.Adds (codeClasses g cs).2 [] ∧ (codeClasses g cs).2.SlotsMarked := by
  induction cs generalizing g with
  | nil => exact ⟨.refl g, hg⟩
  | cons c cs ih =>
    obtain ⟨hadds, hmarked⟩ := c.code_adds (hp c mem_cons_self) hg
    obtain ⟨hadds', hmarked'⟩ := ih (forall_mem_cons.mp hp).2 hmarked
    rw [codeClasses]
    exact ⟨hadds.append hadds', hmarked'⟩

theorem Code.marks_writeTable (table : List Slot) : Line.marks (writeTable table) = [] := by
  rw [writeTable, Line.marks]
  induction table with
  | nil => rfl
  | cons slot table ih =>
    rw [flatMap_cons, Line.marks_append, ih]
    rfl

theorem Code.writeTable_refers {known : List Label} (h : ∀ s ∈ table, ∃ l ∈ known, s = some l) :
    ∀ x ∈ writeTable table, x.Refers known := by
  intro x hx
  rw [writeTable, mem_cons, mem_flatMap] at hx
  rcases hx with rfl | ⟨s, hs, hx⟩
  · trivial
  · rcases mem_cons.mp hx with rfl | hx
    · exact h s hs
    · exact Line.refers_of_isUnlabelled (all_eq_true.mp (by rfl) x hx)

theorem marks_codeClasses (cs : List ClassDecl) (g : Emitter) :
    Line.marks (codeClasses g cs).1 = [] := by
  induction cs generalizing g with
  | nil => rfl
  | cons c cs ih =>
    obtain ⟨_, name, super, _, ms, _, _⟩ := c
    rw [codeClasses, Line.marks_append, ih, ClassDecl.code, Code.marks_writeTable]
    rfl

/-! ### Programs -/

namespace Program

variable {p : Program}

/-- The code of a plain program without that of its classes, and its routines. -/
theorem code_closed (hc : ∀ c ∈ p.classes, ∀ m ∈ c.methods, m.routine.Plain)
    (hd : AllPlain p.decls) :
    ∃ (cd cb : List Line) (hi : Numbers), (p.code {}).main =
        (if p.hasLet then [Line.push 0] else []) ++
          (if p.classes.isEmpty then [] else Code.saveGlobalFrame) ++
          (codeClasses {} p.classes).1 ++ cd ++ cb ++ [Line.op .halt] ∧
      Closed ⟨0, 0⟩ hi ((cd ++ cb) ++ (p.code {}).routines) ∧
      (codeClasses {} p.classes).2.SlotsMarked ∧
      (codeClasses {} p.classes).2.routines <+: (p.code {}).routines := by
  have hempty : Emitter.SlotsMarked {} := fun row hrow => nomatch hrow
  obtain ⟨hclasses, hmarked⟩ := codeClasses_adds p.classes hc hempty
  have hdecls := codeDecls_adds p.decls hd (codeClasses {} p.classes).2
  have hbody := Emitter.expr_adds (codeDecls (codeClasses {} p.classes).2 p.decls).2 p.body
  obtain ⟨added, hroutines, hclosed⟩ := (hclasses.append hdecls).append hbody
  have hadded : added = (p.code {}).routines := hroutines.symm
  rw [hadded] at hclosed
  exact ⟨_, _, _, rfl, hclosed, hmarked, codeDecls_isPrefix _ _⟩

/-- Every label of a plain program is marked once. -/
theorem code_marks_nodup (hc : ∀ c ∈ p.classes, ∀ m ∈ c.methods, m.routine.Plain)
    (hd : AllPlain p.decls) : (Line.marks (p.code {}).lines).Nodup := by
  obtain ⟨cd, cb, hi, hmain, hclosed, -⟩ := code_closed hc hd
  have hstart : Line.marks (if p.hasLet then [.push 0] else []) = [] := by split <;> rfl
  have hsave : Line.marks (if p.classes.isEmpty then [] else Code.saveGlobalFrame) = [] := by
    split <;> rfl
  have hnodup := hclosed.nodup
  simp only [Generated.lines, hmain, Line.marks_append, hstart, hsave, marks_codeClasses,
    nil_append] at hnodup ⊢
  simpa [Line.marks] using hnodup

end Program

end Foolscap
