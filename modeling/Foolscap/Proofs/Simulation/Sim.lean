import Foolscap.Proofs.Simulation.Environment

/-!
# Simulation

When a machine does what an evaluation does.

## Design Notes

What is said of the value and of the store at the end belongs to what the machine reaches, so that
it may rest on the memory being large enough.  No evaluation that is stuck is simulated.
-/

namespace Foolscap

/-- A place of a run: the lines ahead, the stack and the frame pointer. -/
structure Spot where
  code : List Line
  stack : List Word
  fp : Nat

namespace Spot

variable (L : Loaded) (st : Store) (p : Spot)

/-- The configuration at a place, given the two registers that places do not tell. -/
def config (ra tm : Word) : Config := ⟨p.code, p.stack, L.heap st, p.fp, ra, tm, st.printed⟩

/-- A configuration is at a place. -/
def At (c : Config) : Prop := ∃ ra tm, c = p.config L st ra tm

end Spot

/-- How a machine ends where an evaluation ends without a value: at a division by zero, at the load
of the dispatch pointer of null in the code of a method call, or with a stack that is as high as
calls were nested. -/
inductive Ends (L : Loaded) (height : Nat) (st : Store) : Abort → Config → Prop
  | divisionByZero {k : List Line} {S H : List Word} {fp : Nat} {ra tm u : Word} :
      Ends L height st .divisionByZero ⟨.op .div :: k, 0 :: u :: S, H, fp, ra, tm, st.printed⟩
  | nullReceiver {use : Use} {slot : Int} {k : List Line} {S H : List Word} {fp : Nat}
      {ra tm : Word} (hcode : Code.load use ++ (Code.dispatch slot ++ k) <:+ L.lines) :
      Ends L height st .nullReceiver ⟨.op .lw :: .push slot :: .op .add :: .op .lw :: .op .js :: k,
        Word.null :: Word.null :: S, H, fp, ra, tm, st.printed⟩
  | unfinished {c : Config} (h : height ≤ c.stack.length) : Ends L height st .unfinished c

/-- From a place with a store, a machine does what an evaluation does: it gets to a configuration
with a property that may tell of the value, or ends as the evaluation does. -/
def Follows (L : Loaded) (d height : Nat) {α : Type} (x : Eval α) (st : Store) (p : Spot)
    (Q : α → Store → Config → Prop) : Prop :=
  match x st with
  | .ok a st' => st'.next ≤ L.heapLimit → ∀ ra tm,
    Runs L.toSetup d (p.config L st ra tm) (Q a st')
  | .error e st' => st'.next ≤ L.heapLimit → ∀ ra tm,
    Stops L.toSetup d (p.config L st ra tm) (Ends L height st' e)

/-- From a place with a store, a machine does what an evaluation does and gets to the place that
belongs to the value. -/
abbrev Sim (L : Loaded) (d height : Nat) {α : Type} (x : Eval α) (st : Store) (p : Spot)
    (ok : α → Store → Prop) (q : α → Spot) : Prop :=
  Follows L d height x st p fun a st' c => (q a).At L st' c ∧ L.StoreOK st' ∧ ok a st'

variable {L : Loaded} {d height : Nat} {α β : Type} {x y : Eval α} {f : α → Eval β}
  {st st' : Store} {p p' : Spot}

namespace Follows

variable {Q : α → Store → Config → Prop} {R : β → Store → Config → Prop}

theorem of_ok {a : α} (hx : x st = .ok a st') (h : st'.next ≤ L.heapLimit → ∀ ra tm,
      Runs L.toSetup d (p.config L st ra tm) (Q a st')) : Follows L d height x st p Q := by
  rw [Follows, hx]
  exact h

theorem of_error {e : Abort} (hx : x st = .error e st') (h : st'.next ≤ L.heapLimit → ∀ ra tm,
      Stops L.toSetup d (p.config L st ra tm) (Ends L height st' e)) :
    Follows L d height x st p Q := by
  rw [Follows, hx]
  exact h

theorem ok {a : α} (h : Follows L d height x st p Q) (hx : x st = .ok a st')
    (hnext : st'.next ≤ L.heapLimit) (ra tm : Word) :
    Runs L.toSetup d (p.config L st ra tm) (Q a st') := by
  rw [Follows, hx] at h
  exact h hnext ra tm

theorem error {e : Abort} (h : Follows L d height x st p Q) (hx : x st = .error e st')
    (hnext : st'.next ≤ L.heapLimit) (ra tm : Word) :
    Stops L.toSetup d (p.config L st ra tm) (Ends L height st' e) := by
  rw [Follows, hx] at h
  exact h hnext ra tm

theorem mono {Q' : α → Store → Config → Prop} (h : Follows L d height x st p Q)
    (h' : ∀ a st' c, Q a st' c → Q' a st' c) : Follows L d height x st p Q' := by
  cases hx : x st with
  | ok a st' => exact of_ok hx fun hnext ra tm => (h.ok hx hnext ra tm).mono (h' a st')
  | error e st' => exact of_error hx (h.error hx)

theorem congr (hxy : x st = y st) (h : Follows L d height y st p Q) :
    Follows L d height x st p Q := by
  rw [Follows, hxy]
  exact h

theorem throw {e : Abort}
    (h : ∀ ra tm, Stops L.toSetup d (p.config L st ra tm) (Ends L height st e)) :
    Follows L d height (MonadExcept.throw e : Eval α) st p Q :=
  of_error rfl fun _ => h

/-- The memory may be taken to be large enough for the stack and the heap at the place. -/
theorem of_stack_le
    (h : p.stack.length + (L.heap st).length ≤ L.size → Follows L d height x st p Q) :
    Follows L d height x st p Q := by
  cases hx : x st with
  | ok a st' =>
    exact of_ok hx fun hnext ra tm => .of_holds fun m hm => (h hm.stack_le).ok hx hnext ra tm
  | error e st' =>
    exact of_error hx fun hnext ra tm => .of_holds fun m hm => (h hm.stack_le).error hx hnext ra tm

/-- The code ahead may be taken to be part of the program. -/
theorem of_code_suffix (h : p.code <:+ L.lines → Follows L d height x st p Q) :
    Follows L d height x st p Q := by
  cases hx : x st with
  | ok a st' =>
    exact of_ok hx fun hnext ra tm => .of_holds fun m hm => (h hm.code_suffix).ok hx hnext ra tm
  | error e st' =>
    exact of_error hx fun hnext ra tm =>
      .of_holds fun m hm => (h hm.code_suffix).error hx hnext ra tm

/-- Steps of the machine before an evaluation. -/
theorem before (h : ∀ ra tm, Runs L.toSetup d (p.config L st ra tm) (p'.At L st))
    (hsim : Follows L d height x st p' Q) : Follows L d height x st p Q := by
  cases hx : x st with
  | ok a st' =>
    refine of_ok hx fun hnext ra tm => (h ra tm).trans ?_
    rintro _ ⟨ra', tm', rfl⟩
    exact hsim.ok hx hnext ra' tm'
  | error e st' =>
    refine of_error hx fun hnext ra tm => (h ra tm).stops ?_
    rintro _ ⟨ra', tm', rfl⟩
    exact hsim.error hx hnext ra' tm'

/-- One evaluation after the other. -/
theorem bind {ok : α → Store → Prop} {q : α → Spot} (hx : Grows x) (hf : ∀ a, Grows (f a))
    (h : Sim L d height x st p ok q)
    (h' : ∀ a st', st.Extends st' → L.StoreOK st' → ok a st' →
      Follows L d height (f a) st' (q a) R) : Follows L d height (x >>= f) st p R := by
  cases hxst : x st with
  | error e st₁ =>
    have hbind : (x >>= f) st = .error e st₁ := by
      show EStateM.bind x f st = _
      rw [EStateM.bind, hxst]
    exact of_error hbind (h.error hxst)
  | ok a st₁ =>
    have hbind : (x >>= f) st = f a st₁ := by
      show EStateM.bind x f st = _
      rw [EStateM.bind, hxst]
    have hext := hx.ok hxst
    cases hfst : f a st₁ with
    | ok b st₂ =>
      refine of_ok (hbind.trans hfst) fun hnext ra tm => ?_
      refine (h.ok hxst (Nat.le_trans ((hf a).ok hfst).next_le hnext) ra tm).trans ?_
      rintro _ ⟨⟨ra', tm', rfl⟩, hst, hok⟩
      exact (h' a st₁ hext hst hok).ok hfst hnext ra' tm'
    | error e st₂ =>
      refine of_error (hbind.trans hfst) fun hnext ra tm => ?_
      refine (h.ok hxst (Nat.le_trans ((hf a).error hfst).next_le hnext) ra tm).stops ?_
      rintro _ ⟨⟨ra', tm', rfl⟩, hst, hok⟩
      exact (h' a st₁ hext hst hok).error hfst hnext ra' tm'

section

variable {ok ok' : α → Store → Prop} {q q' : α → Spot}

/-- A value at once. -/
theorem pure {a : α} (hst : L.StoreOK st) (hok : ok a st)
    (h : ∀ ra tm, Runs L.toSetup d (p.config L st ra tm) ((q a).At L st)) :
    Sim L d height (Pure.pure a) st p ok q :=
  .of_ok rfl fun _ ra tm => (h ra tm).mono fun _ hc => ⟨hc, hst, hok⟩

/-- Steps of the machine after an evaluation. -/
theorem after (hsim : Sim L d height x st p ok q) (h : ∀ a st', L.StoreOK st' → ok a st' →
      ok' a st' ∧ ∀ ra tm, Runs L.toSetup d ((q a).config L st' ra tm) ((q' a).At L st')) :
    Sim L d height x st p ok' q' := by
  cases hx : x st with
  | ok a st' =>
    refine .of_ok hx fun hnext ra tm => (hsim.ok hx hnext ra tm).trans ?_
    rintro _ ⟨⟨ra', tm', rfl⟩, hst, hok⟩
    obtain ⟨hok', hruns⟩ := h a st' hst hok
    exact (hruns ra' tm').mono fun _ hc => ⟨hc, hst, hok'⟩
  | error e st' => exact .of_error hx (hsim.error hx)

end

end Follows

end Foolscap
