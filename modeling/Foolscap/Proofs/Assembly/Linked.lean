import Foolscap.Assembly
import Mathlib.Algebra.GroupWithZero.Nat

/-!
# Linked code

The cells that lines of assembly fill once every label is known.  A place in the code is given by
the lines from there on, a tail of all lines: its address is what the lines before it fill.
-/

namespace Foolscap

namespace Line

/-- The number of cells that a line fills. -/
def width : Line → Nat
  | op _ => 1
  | push _ | pushLabel _ | branch _ _ => 2
  | mark _ => 0

/-- The number of cells that lines fill. -/
def extent (ls : List Line) : Nat := (ls.map width).sum

@[simp] theorem extent_nil : extent [] = 0 := rfl

@[simp] theorem extent_cons (x : Line) (ls : List Line) :
    extent (x :: ls) = x.width + extent ls := by
  simp [extent]

@[simp] theorem extent_append (ls ks : List Line) : extent (ls ++ ks) = extent ls + extent ks := by
  simp [extent]

/-- The labels that lines mark, in order. -/
def marks : List Line → List Label
  | [] => []
  | mark l :: ls => l :: marks ls
  | op _ :: ls | push _ :: ls | pushLabel _ :: ls | branch _ _ :: ls => marks ls

@[simp] theorem marks_append (ls ks : List Line) : marks (ls ++ ks) = marks ls ++ marks ks := by
  induction ls with
  | nil => rfl
  | cons x ls ih => cases x <;> simp [marks, ih]

/-- The address of a label: what the lines before its first mark fill. -/
def address (l : Label) : List Line → Nat
  | [] => 0
  | mark k :: ls => if k = l then 0 else address l ls
  | x :: ls => x.width + address l ls

/-- The cells of a line, given the addresses of labels.  An empty slot counts as 0. -/
def cells (at_ : Label → Nat) : Line → List Word
  | op o => [Int64.ofNat o.code]
  | push n => [Int64.ofNat Opcode.push.code, Int64.ofInt n]
  | pushLabel none => [Int64.ofNat Opcode.push.code, 0]
  | pushLabel (some l) => [Int64.ofNat Opcode.push.code, Int64.ofNat (at_ l)]
  | branch b l => [Int64.ofNat b.opcode.code, Int64.ofNat (at_ l)]
  | mark _ => []

@[simp] theorem length_cells (at_ : Label → Nat) (x : Line) : (x.cells at_).length = x.width := by
  cases x with
  | pushLabel s => cases s <;> rfl
  | _ => rfl

theorem length_flatMap_cells (at_ : Label → Nat) (ls : List Line) :
    (ls.flatMap (cells at_)).length = extent ls := by
  induction ls with
  | nil => rfl
  | cons x ls ih => simp [ih]

/-- The cells of all lines. -/
def linked (ls : List Line) : List Word := ls.flatMap (cells fun l => address l ls)

@[simp] theorem length_linked (ls : List Line) : (linked ls).length = extent ls :=
  length_flatMap_cells _ ls

/-- The address of a tail of the lines. -/
def place (ls k : List Line) : Nat := extent ls - extent k

variable {ls k : List Line} {x : Line}

theorem place_add_extent (h : k <:+ ls) : place ls k + extent k = extent ls := by
  obtain ⟨before, rfl⟩ := h
  simp [place]

theorem place_cons (h : x :: k <:+ ls) : place ls k = place ls (x :: k) + x.width := by
  have hx := place_add_extent h
  have hk := place_add_extent ((List.suffix_cons x k).trans h)
  rw [extent_cons] at hx
  omega

theorem place_le_extent (ls k : List Line) : place ls k ≤ extent ls := Nat.sub_le ..

/-- The cells from a place on are those of the lines from there on. -/
theorem linked_drop_place (h : k <:+ ls) :
    (linked ls).drop (place ls k) = k.flatMap (cells fun l => address l ls) := by
  obtain ⟨before, rfl⟩ := h
  have hp : place (before ++ k) k =
      (before.flatMap (cells fun l => address l (before ++ k))).length := by
    rw [length_flatMap_cells]
    simp [place]
  rw [linked, List.flatMap_append, hp, List.drop_left]

/-- The cell of an instruction. -/
theorem linked_at_head {w : Word} {ws : List Word} (h : x :: k <:+ ls)
    (hx : x.cells (fun l => address l ls) = w :: ws) :
    (linked ls)[place ls (x :: k)]? = some w := by
  have hd := linked_drop_place h
  rw [List.flatMap_cons, hx] at hd
  rw [← Nat.add_zero (place ls (x :: k)), ← List.getElem?_drop, hd]
  rfl

/-- The cell of an operand. -/
theorem linked_at_operand {w v : Word} (h : x :: k <:+ ls)
    (hx : x.cells (fun l => address l ls) = [w, v]) :
    (linked ls)[place ls (x :: k) + 1]? = some v := by
  have hd := linked_drop_place h
  rw [List.flatMap_cons, hx] at hd
  rw [← List.getElem?_drop, hd]
  rfl

theorem address_append_mark {l : Label} {before : List Line} (k : List Line)
    (h : l ∉ marks before) : address l (before ++ mark l :: k) = extent before := by
  induction before with
  | nil => simp [address]
  | cons x before ih =>
    cases x with
    | mark l' =>
      have hne : l' ≠ l := fun e => h (by simp [marks, e])
      have hb : l ∉ marks before := fun e => h (by simp [marks, e])
      simp [address, hne, width, ih hb]
    | _ => simp [address, ih h]

/-- A label that is marked once has the address of the lines after its mark. -/
theorem address_eq_place {l : Label} (hn : (marks ls).Nodup) (h : mark l :: k <:+ ls) :
    address l ls = place ls k := by
  obtain ⟨before, rfl⟩ := h
  have hl : l ∉ marks before := by
    rw [marks_append, List.nodup_append] at hn
    exact fun hl => hn.2.2 l hl l (by simp [marks]) rfl
  rw [address_append_mark k hl]
  simp [place, width]

end Line

end Foolscap
