import Foolscap.Text

/-!
# Tables

A table maps names to values and remembers the order in which the names came.  Installing a value
under a known name replaces the value and keeps the name's place.
-/

namespace Foolscap

/-- Names with their values, in the order in which the names were first installed. -/
abbrev Table (α : Type) := List (Text × α)

namespace Table

variable {α β : Type}

/-- The value under a name. -/
def get? : Table α → Text → Option α
  | [], _ => none
  | (n, a) :: t, name => if n = name then some a else get? t name

/-- Whether a name has a value. -/
def has (t : Table α) (name : Text) : Bool := (t.get? name).isSome

/-- Install or replace the value under a name. -/
def put : Table α → Text → α → Table α
  | [], name, a => [(name, a)]
  | (n, b) :: t, name, a => if n = name then (n, a) :: t else (n, b) :: put t name a

/-- Leave out a name. -/
def erase : Table α → Text → Table α
  | [], _ => []
  | (n, a) :: t, name => if n = name then erase t name else (n, a) :: erase t name

/-- The names of a table, in order. -/
def names (t : Table α) : List Text := t.map Prod.fst

/-- The rows of a table in byte order of their names. -/
def sorted (t : Table α) : Table α := t.mergeSort fun a b => Text.before a.1 b.1

@[simp] theorem get?_nil (name : Text) : get? ([] : Table α) name = none := rfl

theorem get?_cons (n : Text) (a : α) (t : Table α) (name : Text) :
    get? ((n, a) :: t) name = if n = name then some a else get? t name := rfl

@[simp] theorem put_nil (name : Text) (a : α) : put [] name a = [(name, a)] := rfl

theorem put_cons (n : Text) (b : α) (t : Table α) (name : Text) (a : α) :
    put ((n, b) :: t) name a = if n = name then (n, a) :: t else (n, b) :: put t name a := rfl

/-- A name just installed is found. -/
@[simp] theorem get?_put_self (t : Table α) (name : Text) (a : α) :
    get? (put t name a) name = some a := by
  induction t with
  | nil => simp [get?]
  | cons row t ih =>
    obtain ⟨n, b⟩ := row
    by_cases h : n = name
    · simp [put_cons, h, get?_cons]
    · simp [put_cons, h, get?_cons, ih]

/-- Installing one name leaves the others alone. -/
theorem get?_put_of_ne (t : Table α) {name other : Text} (a : α) (h : other ≠ name) :
    get? (put t name a) other = get? t other := by
  induction t with
  | nil => simp [get?, h.symm]
  | cons row t ih =>
    obtain ⟨n, b⟩ := row
    by_cases hn : n = name
    · subst hn
      simp [put_cons, get?_cons, h.symm]
    · simp [put_cons, hn, get?_cons, ih]

@[simp] theorem names_nil : names ([] : Table α) = [] := rfl

@[simp] theorem names_cons (n : Text) (a : α) (t : Table α) :
    names ((n, a) :: t) = n :: names t := rfl

/-- A new name goes to the end of the list of names, a known one keeps its place. -/
theorem names_put (t : Table α) (name : Text) (a : α) :
    names (put t name a) = if name ∈ names t then names t else names t ++ [name] := by
  induction t with
  | nil => simp
  | cons row t ih =>
    obtain ⟨n, b⟩ := row
    by_cases h : n = name
    · simp [put_cons, h]
    · have h' : ¬ name = n := fun e => h e.symm
      rw [put_cons, if_neg h, names_cons, ih]
      by_cases hm : name ∈ names t <;> simp [hm, h']

/-- Installing a value keeps the names distinct. -/
theorem names_put_nodup {t : Table α} (h : (names t).Nodup) (name : Text) (a : α) :
    (names (put t name a)).Nodup := by
  rw [names_put]
  split
  · exact h
  · next hn =>
    rw [List.nodup_append]
    refine ⟨h, by simp, ?_⟩
    intro x hx y hy
    rw [List.mem_singleton] at hy
    subst hy
    exact fun e => hn (e ▸ hx)

end Table

end Foolscap
