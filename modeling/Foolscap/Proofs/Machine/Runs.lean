import Mathlib.Logic.Relation
import Foolscap.Proofs.Assembly.Heights
import Foolscap.Proofs.Machine.Holds

/-!
# Runs between configurations

How a machine gets from one configuration to another, line by line.  A run may also end on the way
because the stack has met the heap; that is part of the notion, so that it is dealt with once for
each line and never again.

## Design Notes

A line pushes at most one word, code inside a routine is left behind once it is run, and a call
takes at most all lines again.  So the height of the stack plus the number of lines ahead plus, for
every further call, the number of all lines, never grows: that is `Fits`.
-/

namespace Foolscap

/-- The instruction pointer is at the first cell of an instruction. -/
def Listed (P : Setup) (m : Machine) : Prop :=
  ∃ x k, x :: k <:+ P.lines ∧ x.width ≠ 0 ∧ m.ip = Int64.ofNat (Line.place P.lines (x :: k))

/-- A call that is about to be made goes to a routine that takes as many arguments as the call
passes. -/
def Machine.Aims (lines : List Line) (code : Array Word) (m : Machine) : Prop :=
  m.turn code = .calls → ∃ k l, .op .js :: k <:+ lines ∧
    m.ip = Int64.ofNat (Line.place lines (.op .js :: k)) ∧
    m.top? = some (Int64.ofNat (Line.address l lines)) ∧ Line.Takes lines l (Line.passed lines k)

/-- A machine at an instruction of the assembly that is no call with a wrong number of arguments. -/
structure Ready (P : Setup) (m : Machine) : Prop where
  listed : Listed P m
  aims : m.Aims P.lines P.code

/-- A step from an instruction of the assembly to a machine that is still running. -/
def Advances (P : Setup) (m m' : Machine) : Prop :=
  Ready P m ∧ Machine.step P.code m = .running m'

/-- Steps from instructions of the assembly. -/
abbrev Path (P : Setup) : Machine → Machine → Prop := Relation.ReflTransGen (Advances P)

/-- The stack has met the heap.  Either the next instruction needs one more cell, or the last one
has overwritten the first free cell of the heap with the number that is about to be added to the
heap pointer. -/
def Spent (code : Array Word) (m : Machine) : Prop :=
  m.sp = m.hp ∧
    ((∃ m', Machine.step code m = .failed .stackOverflow m') ∨
      ∃ m', Machine.step code m = .running m' ∧ m'.sp = m'.hp + 1 ∧
        Machine.fetch? code m'.ip = some (Int64.ofNat Opcode.shp.code))

/-- The stack has met the heap in a memory that is no larger than the limits. -/
def Exhausted (P : Setup) (m : Machine) : Prop :=
  Spent P.code m ∧ P.size ≤ P.stackLimit + P.heapLimit

/-- What is ahead keeps the stack within its limit if at most so many calls are still to be nested,
and the heap is within its limit. -/
def Fits (P : Setup) (depth : Nat) (c : Config) : Prop :=
  c.stack.length + c.code.length + depth * P.lines.length ≤ P.stackLimit ∧
    c.heap.length ≤ P.heapLimit

/-- A configuration leads to one with a property, unless the memory is exhausted. -/
def Leads (P : Setup) (c : Config) (Q : Config → Prop) : Prop :=
  ∀ m, Holds P m c → ∃ m', Path P m m' ∧ (Exhausted P m' ∨ ∃ c', Holds P m' c' ∧ Q c')

/-- A configuration leads to one with a property, and both keep within the limits. -/
def Runs (P : Setup) (depth : Nat) (c : Config) (Q : Config → Prop) : Prop :=
  Fits P depth c → Leads P c fun c' => Fits P depth c' ∧ Q c'

/-- A configuration within the limits leads to one with a property. -/
def Stops (P : Setup) (depth : Nat) (c : Config) (Q : Config → Prop) : Prop :=
  Fits P depth c → Leads P c Q

variable {P : Setup} {d : Nat} {c c' : Config} {Q R : Config → Prop}

/-! ### Composition -/

theorem Leads.refl (h : Q c) : Leads P c Q :=
  fun m hm => ⟨m, .refl, .inr ⟨c, hm, h⟩⟩

theorem Leads.trans (h : Leads P c Q) (h' : ∀ c', Q c' → Leads P c' R) : Leads P c R := by
  intro m hm
  obtain ⟨m₁, hpath, hend⟩ := h m hm
  cases hend with
  | inl he => exact ⟨m₁, hpath, .inl he⟩
  | inr hc =>
    obtain ⟨c₁, hm₁, hc₁⟩ := hc
    obtain ⟨m₂, hpath', hend'⟩ := h' c₁ hc₁ m₁ hm₁
    exact ⟨m₂, hpath.trans hpath', hend'⟩

theorem Runs.refl (h : Q c) : Runs P d c Q := fun hf => .refl ⟨hf, h⟩

/-- Runs one after the other. -/
theorem Runs.trans (h : Runs P d c Q) (h' : ∀ c', Q c' → Runs P d c' R) : Runs P d c R :=
  fun hf => (h hf).trans fun c' hc' => h' c' hc'.2 hc'.1

theorem Runs.mono (h : Runs P d c Q) (h' : ∀ c', Q c' → R c') : Runs P d c R :=
  h.trans fun c' hc' => .refl (h' c' hc')

/-- A run that comes to where it stops. -/
theorem Runs.stops (h : Runs P d c Q) (h' : ∀ c', Q c' → Stops P d c' R) : Stops P d c R :=
  fun hf => (h hf).trans fun c' hc' => h' c' hc'.2 hc'.1

theorem Stops.refl (h : Q c) : Stops P d c Q := fun _ => .refl h

/-- What a configuration that a machine is in says of itself can be used. -/
theorem Runs.of_holds (h : ∀ m, Holds P m c → Runs P d c Q) : Runs P d c Q :=
  fun hf m hm => h m hm hf m hm

theorem Stops.of_holds (h : ∀ m, Holds P m c → Stops P d c Q) : Stops P d c Q :=
  fun hf m hm => h m hm hf m hm

variable {m : Machine} {x : Line} {k : List Line}

/-- The memory is no larger than the limits if the stack meets the heap. -/
theorem Holds.exhausted (h : Holds P m c) (hf : Fits P d c) (hs : Spent P.code m) :
    Exhausted P m := by
  refine ⟨hs, ?_⟩
  have hsp := h.sp_eq
  have hhp := h.hp_eq
  have hmeet := hs.1
  obtain ⟨hstack, hheap⟩ := hf
  omega

theorem Holds.listed (h : Holds P m c) (hc : c.code = x :: k) (hx : x.width ≠ 0) : Listed P m :=
  ⟨x, k, hc ▸ h.code_suffix, hx, hc ▸ h.ip_eq⟩

/-- A machine is ready for every line but a jump. -/
theorem Holds.ready (h : Holds P m c) (hc : c.code = x :: k) (hx : x.width ≠ 0 ∧ x ≠ .op .js) :
    Ready P m where
  listed := h.listed hc hx.1
  aims := by
    intro hcalls
    rw [h.turn_stays hc hx] at hcalls
    cases hcalls

/-- One step that either leads on or finds the memory spent. -/
theorem Leads.of_ready (hf : Fits P d c)
    (hstep : ∀ m, Holds P m c → Spent P.code m ∨
      Ready P m ∧ ∃ m', Machine.step P.code m = .running m' ∧ Holds P m' c')
    (h : Leads P c' Q) : Leads P c Q := by
  intro m hm
  cases hstep m hm with
  | inl hs => exact ⟨m, .refl, .inl (hm.exhausted hf hs)⟩
  | inr hs =>
    obtain ⟨hready, m₁, hs₁, hm₁⟩ := hs
    obtain ⟨m₂, hpath, hend⟩ := h m₁ hm₁
    exact ⟨m₂, .head ⟨hready, hs₁⟩ hpath, hend⟩

/-- One step: it needs a line that fills cells, and either leads on or finds the memory spent. -/
theorem Runs.of_step (hc : c.code = x :: k) (hx : x.width ≠ 0 ∧ x ≠ .op .js)
    (hfits : Fits P d c → Fits P d c') (hstep : ∀ m, Holds P m c →
      Spent P.code m ∨ ∃ m', Machine.step P.code m = .running m' ∧ Holds P m' c')
    (h : Runs P d c' Q) : Runs P d c Q :=
  fun hf => .of_ready hf (fun m hm => (hstep m hm).imp_right fun hs => ⟨hm.ready hc hx, hs⟩)
    (h (hfits hf))

end Foolscap
