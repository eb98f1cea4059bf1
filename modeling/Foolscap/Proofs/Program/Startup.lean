import Foolscap.Proofs.Program.Accepted
import Foolscap.Proofs.Simulation.Routine

/-!
# Start-up

What the code of a program does before the code of its declarations: it writes the global frame
pointer and the dispatch tables into the heap and leaves the addresses of the tables in the global
frame.  From there on the code does what the evaluation of the program does.

## Design Notes

Evaluation starts with a store without objects whose first free cell is the one behind the dispatch
tables.  So the start-up code is not simulated by any part of an evaluation.
-/

namespace Foolscap

open List

/-! ### Dispatch tables -/

variable {ts : Table (List Label)}

/-- The first of some tables has the address that they start at, the others follow. -/
theorem Loaded.map_tableFrom_cons {cls : Text} {labels : List Label} (h : cls ∉ ts.names)
    (a : Nat) :
    ((cls, labels) :: ts).map (fun t => tableFrom a ((cls, labels) :: ts) t.1) =
      a :: ts.map fun t => tableFrom (a + labels.length) ts t.1 := by
  rw [map_cons, tableFrom, if_pos rfl]
  refine congrArg _ (map_congr_left fun t ht => ?_)
  rw [tableFrom, if_neg]
  rintro rfl
  exact h (mem_map_of_mem ht)

/-- Dispatch tables are written into the heap one after the other, and their addresses are left. -/
theorem Runs.writeTables {P : Setup} {d : Nat} {Q : Config → Prop} {k : List Line}
    {S H : List Word} {fp : Nat} {ra tm : Word} {o : List Word} (hnodup : ts.names.Nodup)
    (hH : H.length + (ts.map fun t => t.2.length).sum ≤ P.heapLimit)
    (h : Runs P d ⟨k, ((ts.map fun t => Loaded.tableFrom H.length ts t.1).map Int64.ofNat).reverse
        ++ S, H ++ ts.flatMap fun t => t.2.map fun l => Int64.ofNat (Line.address l P.lines), fp,
      ra, tm, o⟩ Q) :
    Runs P d
      ⟨(ts.flatMap fun t => Code.writeTable (t.2.map some)) ++ k, S, H, fp, ra, tm, o⟩ Q := by
  induction ts generalizing S H with
  | nil => simpa using h
  | cons t ts ih =>
    obtain ⟨cls, labels⟩ := t
    obtain ⟨hnot, hnodup⟩ := nodup_cons.mp hnodup
    rw [map_cons, sum_cons] at hH
    rw [flatMap_cons, append_assoc]
    refine .writeTable (by omega) (ih hnodup ?_ ?_)
    · rw [length_append, length_map]
      omega
    · rw [Loaded.map_tableFrom_cons hnot] at h
      rw [length_append, length_map]
      simpa using h

namespace Loaded

variable (L : Loaded)

/-- The addresses of the dispatch tables, the last one first. -/
def addresses : List Word :=
  ((L.tables.map fun t => tableFrom 1 L.tables t.1).map Int64.ofNat).reverse

theorem globals_eq : L.globals = if L.tables.isEmpty then [] else L.addresses ++ [0] := by
  simp only [globals, addresses, map_map]
  rfl

theorem length_start : L.start.length =
    if L.tables.isEmpty then 0 else 1 + (L.tables.map fun t => t.2.length).sum := by
  rw [start]
  split
  · rfl
  · simp [length_flatMap, Nat.add_comm]

/-- A store without objects lies in the memory from the start. -/
theorem storeOK_empty {n : Nat} {o : List Word} (hn : L.start.length = n) :
    L.StoreOK { objects := [], next := n, printed := o } where
  sized := by simpa [heap, heapOf] using hn
  placed := fun os p o hpre => by simp at hpre
  typed := fun p o ho => absurd ho not_mem_nil

end Loaded

/-- The number of methods of a class is the length of its dispatch table. -/
theorem Loaded.Known.length_row {L : Loaded} {g : Emitter} {R : Resolver} {global : Table Entry}
    {b : Nat} {shapes : Table ClassShape} (h : L.Known g R global b shapes)
    {row : Text × List Slot} (hrow : row ∈ g.dispatch) :
    ∃ shape, shapes.get? row.1 = some shape ∧ shape.methods.length = row.2.length := by
  obtain ⟨cls, table⟩ := row
  have htable := (Table.mem_iff_get? h.nodup).mp hrow
  cases hinfo : R.scopes.context.classes.get? cls with
  | none =>
    rw [h.tabled.unknown cls hinfo] at htable
    cases htable
  | some info =>
    obtain ⟨l, -, hlaid, -⟩ := h.tabled.layout cls info hinfo
    obtain ⟨shape, hshape, hagrees⟩ := h.agrees cls info l table hinfo hlaid htable
    exact ⟨shape, hshape, hagrees.count.trans hagrees.slots.filled.length.symm⟩

/-- The halt instruction is ahead and the value of the program is on top of the stack. -/
def AtHalt (L : Loaded) (w : Word) (st : Store) (c : Config) : Prop :=
  ∃ k S fp, (⟨.op .halt :: k, w :: S, fp⟩ : Spot).At L st c ∧ L.StoreOK st

/-- Where a machine is at the end of an evaluation. -/
def AtEnd (L : Loaded) (height : Nat) (c : Config) : EStateM.Result Abort Store Word → Prop
  | .ok w st => AtHalt L w st c
  | .error e st => Ends L height st e c

namespace Program

/-- The store before anything is evaluated. -/
def initial (p : Program) : Store := { next := p.firstCell }

/-- The stack after start-up. -/
def globalFrame {p : Program} (L : Loaded) : List Word :=
  if p.hasLet then L.addresses ++ [0] else []

namespace Accepted

variable {p : Program} (h : p.Accepted) (B : p.Room)

/-- The dispatch tables are those of the classes, in order. -/
theorem names_tables : (h.loaded B).tables.names = p.classes.map ClassDecl.name := by
  obtain ⟨-, -, -, hnames, -⟩ := h.tabled
  rw [← hnames, loaded, Table.names, map_map]
  rfl

theorem isEmpty_tables : (h.loaded B).tables.isEmpty = p.classes.isEmpty := by
  have hnames := congrArg List.isEmpty (h.names_tables B)
  simpa [Table.names] using hnames

theorem nodup_tables : (h.loaded B).tables.names.Nodup := by
  obtain ⟨_, _, hknown⟩ := h.known B
  have hnodup := hknown.nodup
  rw [loaded, Table.names, map_map]
  exact hnodup

/-- The dispatch tables have a slot for each method. -/
theorem length_tables :
    ((h.loaded B).tables.map fun t => t.2.length) = p.classes.map p.methodCount := by
  obtain ⟨_, _, hknown⟩ := h.known B
  obtain ⟨_, -, hslots, hnames, -⟩ := h.tabled
  have hcount : p.classes.map p.methodCount =
      p.dispatch.names.map fun cls => ((p.shapes.get? cls).getD {}).methods.length := by
    rw [hnames, map_map]
    rfl
  rw [hcount, loaded, Table.names, map_map, map_map]
  refine map_congr_left fun row hrow => ?_
  obtain ⟨shape, hshape, hlength⟩ := hknown.length_row hrow
  have hlabels := congrArg List.length (Code.map_some_filterMap (hslots row hrow))
  rw [length_map] at hlabels
  simp only [Function.comp_apply, hshape, Option.getD_some, hlength, hlabels]

theorem length_start : (h.loaded B).start.length = p.firstCell := by
  rw [Loaded.length_start, h.isEmpty_tables, h.length_tables, firstCell]

theorem emitClasses_eq : p.emitClasses.1 =
    (h.loaded B).tables.flatMap fun t => Code.writeTable (t.2.map some) := by
  obtain ⟨_, -, hslots, -, hcode⟩ := h.tabled
  rw [hcode, loaded, flatMap_map]
  refine flatMap_congr fun row hrow => ?_
  rw [Code.map_some_filterMap (hslots row hrow)]

/-! ### The start -/

theorem heap_initial : (h.loaded B).heap p.initial = (h.loaded B).start := by
  simp [Loaded.heap, Loaded.heapOf, initial]

variable {d : Nat} {env : Env} {st : Store} {S : List Word} {m : Machine}

/-- The start of a program leaves the addresses of the dispatch tables on the stack and the tables
in the heap. -/
theorem starts (k : List Line) (hlimit : p.firstCell ≤ B.heapLimit) :
    Runs (h.loaded B).toSetup d ⟨p.prologue ++ (p.emitClasses.1 ++ k), [], [], B.size, 0, 0, []⟩
      ((⟨k, p.globalFrame (h.loaded B), B.size⟩ : Spot).At (h.loaded B) p.initial) := by
  have hempty := h.isEmpty_tables B
  rw [h.emitClasses_eq B, prologue, globalFrame]
  cases hclasses : p.classes.isEmpty with
  | true =>
    rw [hclasses] at hempty
    have htables : (h.loaded B).tables = [] := isEmpty_iff.mp hempty
    have hheap : (h.loaded B).heap p.initial = [] := by
      rw [heap_initial, Loaded.start, if_pos hempty]
    rw [Loaded.addresses, htables]
    split
    · exact .push (.refl ⟨0, 0, by rw [Spot.config, hheap]; rfl⟩)
    · exact .refl ⟨0, 0, by rw [Spot.config, hheap]; rfl⟩
  | false =>
    rw [hclasses] at hempty
    have hheap : (h.loaded B).heap p.initial = [Int64.ofNat B.size] ++
        (h.loaded B).tables.flatMap fun t => t.2.map (h.loaded B).slot := by
      rw [heap_initial, Loaded.start, if_neg (by simp [hempty])]
      rfl
    have hsum : 1 + ((h.loaded B).tables.map fun t => t.2.length).sum ≤ B.heapLimit := by
      rw [h.length_tables]
      simpa [firstCell, hclasses] using hlimit
    have hlet : p.hasLet = true := by simp [hasLet, hclasses]
    rw [if_pos hlet, if_pos hlet, if_neg Bool.false_ne_true]
    show Runs _ d ⟨.push 0 :: .op .lfp :: (Code.allocate ++ (_ ++ k)), _, _, _, _, _, _⟩ _
    refine .push (.lfp (.allocate (Nat.le_trans (Nat.le_add_right 1 _) hsum) ?_))
    refine .writeTables (h.nodup_tables B) hsum (.refl ⟨0, 0, ?_⟩)
    rw [Spot.config, hheap]
    rfl

/-! ### From the start on -/

/-- The global scope after start-up: it has the names of classes only. -/
theorem framed_start : (h.loaded B).Framed p.walkClasses.2.scopes [] p.initial
    (p.globalFrame (h.loaded B)) [B.size] := by
  obtain ⟨global, _, hknown⟩ := h.known B
  have htables := hknown.tabled.tables
  have hlocate : ∀ {name i e}, Scopes.locate p.walkClasses.2.scopes.tables name = some (i, e) →
      i = 0 ∧ e.kind = .cls ∧ e.level = 0 ∧ e.ty.isComplete ∧
        ∃ info, p.context.classes.get? name = some info ∧ info.entry = e := by
    intro name i e hl
    rw [htables, Scopes.locate_singleton] at hl
    rw [h.context_eq_walkClasses]
    exact ⟨hl.1, hknown.conforming.entry hl.2⟩
  refine ⟨⟨fun name i e hl => ?_, fun name i e hl => (hlocate hl).2.2.2.1,
    fun name i e hl _ => (hlocate hl).2.2.2.2, fun name info hinfo => ?_⟩,
    fun name i e hl hkind => absurd (hlocate hl).2.1 hkind, .singleton _, ?_,
    Loaded.storeOK_empty _ (h.length_start B)⟩
  · obtain ⟨rfl, -, hlevel, -⟩ := hlocate hl
    rw [hlevel, htables]
    rfl
  · rwa [← h.context_eq_walkClasses] at hinfo
  · rw [Loaded.globals_eq, h.isEmpty_tables, globalFrame]
    split
    · exact nil_suffix
    · next hclasses =>
      have hlet : p.hasLet = true := by simp [hasLet, hclasses]
      exact ⟨[], (if_pos hlet).symm⟩

/-- The body has a type. -/
theorem typeOf_body {frames : List Nat}
    (hframed : (h.loaded B).Framed p.walkDecls.2.scopes env st S frames) :
    ∃ t, p.boundBody.typeOf p.context.supers = .ok t := by
  have hquiet := h.quiet
  rw [halts, Typing.quiet_append] at hquiet
  cases ht : p.boundBody.typeOf p.context.supers with
  | ok t => exact ⟨t, rfl⟩
  | error x =>
    rw [ht] at hquiet
    obtain rfl := hquiet.2 x (mem_singleton_self x)
    exact absurd ht (Expr.typeOf_bind_ne_incomplete hframed.site (h.world B).complete p.body)

/-- The body does what its evaluation does. -/
theorem follows_body {fp : Nat} {as : List Nat} (k : List Line)
    (hframed : (h.loaded B).Framed p.walkDecls.2.scopes env st S (fp :: as)) :
    Follows (h.loaded B) d d (p.body.eval p.shapes (invoke p.shapes d) env) st
      ⟨p.bodyCode ++ .op .halt :: k, S, fp⟩ (AtHalt (h.loaded B)) := by
  obtain ⟨t, ht⟩ := h.typeOf_body B hframed
  have hsim := Expr.sim ((h.world B).calls d d) p.body p.emitDecls.2.nextBranch (.op .halt :: k)
    hframed ht (Nat.le_add_left _ _)
  exact hsim.mono fun w st' c hc => ⟨k, S, fp, hc.1, hc.2.1⟩

/-- The declarations of a program were resolved, checked and generated. -/
theorem declsOK : (h.loaded B).DeclsOK p.walkClasses.2 p.emitClasses.2 p.decls where
  plain := h.plain.2
  clean := h.walkDecls_errors
  quiet := by
    have hquiet := h.quiet
    rw [halts, Typing.quiet_append, Typing.quiet_append] at hquiet
    exact hquiet.1.2
  emitted := by
    refine ⟨[], ?_⟩
    rw [append_nil]
    exact suffix_append _ _

/-- After start-up a program does what its evaluation does. -/
theorem follows (d : Nat) :
    Follows (h.loaded B) d d (evalDecls p.shapes (invoke p.shapes d) [] p.decls >>= fun env =>
        p.body.eval p.shapes (invoke p.shapes d) env) p.initial
      ⟨p.emitDecls.1 ++ (p.bodyCode ++ .op .halt :: p.emitDecls.2.routines),
        p.globalFrame (h.loaded B), B.size⟩ (AtHalt (h.loaded B)) := by
  have hframed := h.framed_start B
  cases hlet : p.hasLet with
  | true =>
    have hstack : p.globalFrame (h.loaded B) = (h.loaded B).addresses ++ 0 :: [] := by
      rw [globalFrame, if_pos hlet]
    rw [hstack] at hframed ⊢
    obtain ⟨global, _, hknown⟩ := h.known B
    have hact : (h.world B).Activation p.walkClasses.2 [] p.initial (h.loaded B).addresses 0 []
        B.size [] := by
      refine ⟨hframed, rfl, ?_, by rw [hknown.tabled.tables]; nofun⟩
      rw [hknown.next, Loaded.addresses]
      simp [loaded, dispatch]
    exact evalDecls_sim (W := h.world B) ((h.world B).calls d d) (h.declsOK B) hact
      (Nat.le_add_left _ _) (eval_grows (W := h.world B) p.body) fun env' st' vs' _ hact' =>
        h.follows_body B _ hact'.toFramed
  | false =>
    have hdecls : p.decls = [] := by
      rw [hasLet, Bool.or_eq_false_iff] at hlet
      simpa using hlet.2
    have hcode : p.emitDecls.1 = [] := by
      rw [emitDecls, walkDecls, hdecls, resolveDecls, codeDecls]
    have hscopes : p.walkDecls.2 = p.walkClasses.2 := by
      rw [walkDecls, hdecls, resolveDecls]
    rw [hdecls, hcode]
    exact .congr rfl (h.follows_body B _ (hscopes ▸ hframed))

/-! ### Whole runs -/

theorem firstCell_le (d : Nat) : p.firstCell ≤ (Abort.storeOf (p.evaluate d)).next := by
  have hgrows : Grows (evalDecls p.shapes (invoke p.shapes d) [] p.decls >>= fun env =>
      p.body.eval p.shapes (invoke p.shapes d) env) :=
    .bind (evalDecls_grows (invoke_grows d) _ _) fun env => Expr.eval_grows (invoke_grows d) env _
  exact (hgrows p.initial).next_le

/-- A machine that has been reset is in the configuration that a run starts from. -/
theorem holds_reset (hm : m.memory.size = B.size) :
    Holds (h.loaded B).toSetup m.reset ⟨p.lines, [], [], B.size, 0, 0, []⟩ where
  code_suffix := suffix_rfl
  ip_eq := by
    show (0 : Word) = Int64.ofNat (Line.extent p.lines - Line.extent p.lines)
    rw [Nat.sub_self]
    rfl
  size_eq := Array.size_replicate.trans hm
  sp_eq := hm
  hp_eq := rfl
  hp_le := Nat.zero_le _
  stack_eq := fun i w hi => by simp at hi
  heap_eq := fun i w hi => by simp at hi
  fp_eq := congrArg Int64.ofNat hm
  ra_eq := rfl
  tm_eq := rfl
  printed_eq := rfl

/-- A run gets to where the evaluation ends, unless it exhausts a memory that is no larger than what
calls of that depth and the objects of the evaluation may take. -/
theorem path (hm : m.memory.size = B.size) (hstack : (d + 1) * p.lines.length ≤ B.stackLimit)
    (hheap : (Abort.storeOf (p.evaluate d)).next ≤ B.heapLimit) :
    ∃ m', Path (h.loaded B).toSetup m.reset m' ∧ (Exhausted (h.loaded B).toSetup m' ∨
      ∃ c, Holds (h.loaded B).toSetup m' c ∧ AtEnd (h.loaded B) d c (p.evaluate d)) := by
  have hfits : Fits (h.loaded B).toSetup d ⟨p.lines, [], [], B.size, 0, 0, []⟩ := by
    refine ⟨?_, Nat.zero_le _⟩
    rw [Nat.add_mul] at hstack
    show 0 + p.lines.length + d * p.lines.length ≤ B.stackLimit
    omega
  have hstarts := h.starts B (d := d)
    (p.emitDecls.1 ++ (p.bodyCode ++ .op .halt :: p.emitDecls.2.routines))
    (Nat.le_trans (firstCell_le d) hheap)
  rw [← p.lines_eq] at hstarts
  have hfollows := h.follows B d
  cases hx : p.evaluate d with
  | ok v st =>
    rw [hx] at hheap
    have hruns := hstarts.trans fun c hc => by
      obtain ⟨ra, tm, rfl⟩ := hc
      exact hfollows.ok hx hheap ra tm
    obtain ⟨m', hpath, hend⟩ := hruns hfits m.reset (h.holds_reset B hm)
    exact ⟨m', hpath, hend.imp_right fun ⟨c, hm', _, hc⟩ => ⟨c, hm', hc⟩⟩
  | error e st =>
    rw [hx] at hheap
    have hstops := hstarts.stops fun c hc => by
      obtain ⟨ra, tm, rfl⟩ := hc
      exact hfollows.error hx hheap ra tm
    exact hstops hfits m.reset (h.holds_reset B hm)

end Accepted

end Program

end Foolscap
