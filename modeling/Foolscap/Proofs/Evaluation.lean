import Foolscap.Table
import Foolscap.Tree
import Mathlib.Algebra.GroupWithZero.Nat

/-!
# Evaluation

What a program means, told on its tree as it was parsed and without frames, offsets, labels or
machine code.  Names are looked up in environments, functions carry the environment they were
declared in, and methods are found by walking from the class of the object.

## Design Notes

Values are machine words: truth values are 1 and 0, the null reference is -1 and an object is the
number of its last cell.  Objects lie behind the global frame pointer and the dispatch tables, in
the order in which they are made, and one with `n` fields takes `n + 1` cells.

Only calls can go on for ever, so only they are counted: `Expr.eval` recurses on the tree and is
told how to call, and `invoke` recurses on the number of calls that may still be nested.
-/

namespace Foolscap

/-! ### What names stand for -/

/-- What a name stands for: a value, a function with the names that were known where it was
declared, or a method of an object. -/
inductive Binding where
  | value (w : Word)
  | function (r : Routine) (known : List (Text × Binding))
  | method (this : Word)

/-- Names with what they stand for.  The first row with a name counts. -/
abbrev Env := Table Binding

/-! ### Classes and objects -/

/-- What the objects of a class have: the names of their fields, and for each method name the class
that declares the method and the method itself, inherited ones first. -/
structure ClassShape where
  fields : List Text := []
  methods : Table (Text × Routine) := []

namespace ClassShape

/-- The field names of a class, given those that it inherits. -/
def addFields (names : List Text) : List Field → List Text
  | [] => names
  | f :: fs => addFields (if f.name ∈ names then names else names ++ [f.name]) fs

/-- The methods of a class, given those that it inherits. -/
def addMethods (cls : Text) (table : Table (Text × Routine)) :
    List Method → Table (Text × Routine)
  | [] => table
  | ⟨r, _⟩ :: ms => addMethods cls (table.put r.name (cls, r)) ms

/-- The shape of a class, given that of its superclass. -/
def extend (inherited : ClassShape) (c : ClassDecl) : ClassShape :=
  ⟨addFields inherited.fields c.fields, addMethods c.name inherited.methods c.methods⟩

/-- The shape that a class starts from. -/
def inherited (known : Table ClassShape) : Option Text → ClassShape
  | none => {}
  | some super => (known.get? super).getD {}

/-- The shapes of classes, given those declared before. -/
def table (known : Table ClassShape) : List ClassDecl → Table ClassShape
  | [] => known
  | c :: cs => table (known.put c.name ((inherited known c.super).extend c)) cs

end ClassShape

/-- An object: the class it was made of, and its fields by position. -/
structure Object where
  cls : Text
  fields : List Word

/-- The objects made so far by the number of their last cell, the first free cell, and the numbers
printed so far, the latest first. -/
structure Store where
  objects : List (Nat × Object) := []
  next : Nat := 0
  printed : List Word := []

namespace Store

/-- The object that a word denotes. -/
def object? (s : Store) (w : Word) : Option Object :=
  (s.objects.find? fun o => Int64.ofNat o.1 = w).map Prod.snd

/-- The number of the last cell of an object that is made now. -/
def place (s : Store) (o : Object) : Nat := s.next + o.fields.length

/-- Make an object. -/
def make (s : Store) (o : Object) : Store :=
  { s with objects := s.objects ++ [(s.place o, o)], next := s.place o + 1 }

/-- Print a number. -/
def print (s : Store) (w : Word) : Store := { s with printed := w :: s.printed }

end Store

/-! ### Evaluation -/

/-- Why an evaluation ends without a value.  `stuck` stands for what types exclude, and
`unfinished` for more nested calls than were allowed. -/
inductive Abort where
  | divisionByZero
  | nullReceiver
  | stuck
  | unfinished
  deriving DecidableEq, Repr

/-- A computation over the store that can end early. -/
abbrev Eval := EStateM Abort Store

/-- How to call: evaluate a routine, given what is known around it and its arguments. -/
abbrev Caller := Routine → Env → List Word → Eval Word

/-- The word of a truth value. -/
def Word.ofBool (b : Bool) : Word := if b then 1 else 0

/-- The word of the null reference. -/
def Word.null : Word := -1

/-- The value of an operation whose operands are both evaluated. -/
def BinaryOp.eval (op : BinaryOp) (u v : Word) : Eval Word :=
  match op with
  | .plus => return u + v
  | .minus => return u - v
  | .times => return u * v
  | .div => if v = 0 then throw .divisionByZero else return u / v
  | .equal => return Word.ofBool (u = v)
  | .lessEqual => return Word.ofBool (u ≤ v)
  | .greaterEqual => return Word.ofBool (v ≤ u)
  | .and | .or => throw .stuck

/-- What is known inside a method of a class for an object: the object's fields and its methods. -/
def ClassShape.members (shape : ClassShape) (this : Word) (o : Object) : Env :=
  (shape.fields.zip (o.fields.map Binding.value)) ++
    shape.methods.names.map fun name => (name, .method this)

/-- Call a method of an object: the one that the class of the object has under the name. -/
def dispatch (shapes : Table ClassShape) (call : Caller) (this : Word) (name : Text)
    (args : List Word) : Eval Word := do
  match (← get).object? this with
  | none => throw .stuck
  | some o => match (shapes.get? o.cls).bind fun shape => shape.methods.get? name with
    | none => throw .stuck
    | some (owner, r) => match shapes.get? owner with
      | none => throw .stuck
      | some shape => call r (shape.members this o) args

/-- Make an object of a class and yield its number. -/
def construct (shapes : Table ClassShape) (cls : Text) (fields : List Word) : Eval Word := do
  if shapes.has cls then
    let s ← get
    set (s.make ⟨cls, fields⟩)
    return Int64.ofNat (s.place ⟨cls, fields⟩)
  else throw .stuck

section

variable (shapes : Table ClassShape) (call : Caller)

mutual

/-- The value of an expression. -/
def Expr.eval (env : Env) : Expr → Eval Word
  | .missing => throw .stuck
  | .binary _ .and l r => do
    if (← l.eval env) = 0 then return 0 else r.eval env
  | .binary _ .or l r => do
    if (← l.eval env) = 1 then return 1 else r.eval env
  | .binary _ .greaterEqual l r => do
    let v ← r.eval env
    let u ← l.eval env
    BinaryOp.greaterEqual.eval u v
  | .binary _ op l r => do
    let u ← l.eval env
    let v ← r.eval env
    op.eval u v
  | .not _ e => do return Word.ofBool ((← e.eval env) = 0)
  | .cond _ c t e => do
    if (← c.eval env) = 1 then t.eval env else e.eval env
  | .print _ e => do
    let w ← e.eval env
    modify fun s => s.print w
    return w
  | .int _ w => return w
  | .bool _ b => return Word.ofBool b
  | .null _ => return Word.null
  | .id _ name _ => match env.get? name with
    | some (.value w) => return w
    | _ => throw .stuck
  | .call _ name as _ => do
    let args ← evalLastFirst env as
    match env.get? name with
    | some (.function r known) => call r ((name, .function r known) :: known) args
    | some (.method this) => dispatch shapes call this name args
    | _ => throw .stuck
  | .new _ name as _ => do construct shapes name (← evalFirstLast env as)
  | .send _ receiver method as _ _ => do
    let args ← evalLastFirst env as
    match env.get? receiver with
    | some (.value this) =>
      if this = Word.null then throw .nullReceiver else dispatch shapes call this method args
    | _ => throw .stuck

/-- The values of expressions, evaluated from the first to the last. -/
def evalFirstLast (env : Env) : List Expr → Eval (List Word)
  | [] => return []
  | e :: es => do
    let w ← e.eval env
    return w :: (← evalFirstLast env es)

/-- The values of expressions, evaluated from the last to the first. -/
def evalLastFirst (env : Env) : List Expr → Eval (List Word)
  | [] => return []
  | e :: es => do
    let ws ← evalLastFirst env es
    return (← e.eval env) :: ws

end

/-- What is known after declarations.  A variable is not known in its own expression; a function
is, because whoever calls it adds it. -/
def evalDecls (env : Env) : List Decl → Eval Env
  | [] => return env
  | .var v :: ds => do
    let w ← v.value.eval shapes call env
    evalDecls ((v.name, .value w) :: env) ds
  | .fn r :: ds => evalDecls ((r.name, .function r env) :: env) ds
  | .cls _ :: _ => throw .stuck

end

/-- The arguments of a call under the names of the parameters. -/
def Routine.arguments (r : Routine) (args : List Word) : Env :=
  (r.params.map Param.name).zip (args.map Binding.value)

/-- The value of a call with at most so many calls inside one another, this one included. -/
def invoke (shapes : Table ClassShape) : Nat → Caller
  | 0, _, _, _ => throw .unfinished
  | depth + 1, r, known, args => do
    let env ← evalDecls shapes (invoke shapes depth) (r.arguments args ++ known) r.decls
    r.body.eval shapes (invoke shapes depth) env

namespace Program

/-- The shapes of the classes of a program. -/
def shapes (p : Program) : Table ClassShape := ClassShape.table [] p.classes

/-- The number of methods of a class of the program, inherited ones included. -/
def methodCount (p : Program) (c : ClassDecl) : Nat :=
  ((p.shapes.get? c.name).getD {}).methods.length

/-- The first cell for objects.  Programs with classes keep the global frame pointer in cell 0 and
the dispatch tables of the classes, one after the other, in the cells behind it. -/
def firstCell (p : Program) : Nat :=
  if p.classes.isEmpty then 0 else 1 + (p.classes.map p.methodCount).sum

/-- The value of a program with at most so many calls inside one another, and the store at the
end. -/
def evaluate (p : Program) (depth : Nat) : EStateM.Result Abort Store Word :=
  let program : Eval Word := do
    let env ← evalDecls p.shapes (invoke p.shapes depth) [] p.decls
    p.body.eval p.shapes (invoke p.shapes depth) env
  program { next := p.firstCell }

end Program

end Foolscap
