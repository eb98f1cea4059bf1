import Foolscap.Assembly
import Foolscap.Scope.Resolve

/-!
# Code generation

Resolved programs as assembly.  The main code evaluates the declarations and the body and halts;
the bodies of functions and methods follow it.

A caller pushes the control link, the arguments from the last to the first and the access link, and
jumps; the callee sets up its frame, pushes its declarations, evaluates its body, and pops all of
that again, leaving only the result.  A class is represented at run time by its dispatch table in
the heap; an object by its fields and the address of that table.  Heap cell 0 holds the global
frame pointer in programs that declare classes.

## Design Notes

Labels are numbered in the order in which they are needed, which is not always the order in which
they are written; code is therefore produced together with the next free number.
-/

namespace Foolscap

namespace Code

/-- Reserve the heap cell that was just written. -/
def bumpHeap : List Line := [.op .lhp, .push 1, .op .add, .op .shp]

/-- Store the top of the stack in the next heap cell and reserve it. -/
def allocate : List Line := [Line.op .lhp, .op .sw] ++ bumpHeap

/-- The value of the null reference. -/
def nullPointer : Int := -1

/-- The heap cell of the global frame pointer. -/
def globalCell : Int := 0

/-- Leave the address of the frame that is some access links away. -/
def frame (hops : Nat) : List Line := .op .lfp :: List.replicate hops (.op .lw)

/-- Load the value that a name denotes. -/
def load (u : Use) : List Line :=
  frame u.hops ++ [Line.push u.entry.offset, .op .add, .op .lw]

/-- Load the slot at an offset of the global frame. -/
def loadGlobal (offset : Int) : List Line :=
  [.push globalCell, .op .lw, .push offset, .op .add, .op .lw]

/-- Store the global frame pointer in its heap cell.  Nothing else is allocated before. -/
def saveGlobalFrame : List Line := .op .lfp :: allocate

/-- Keep the address on top of the stack as access link and jump to the routine that lies at an
offset from it. -/
def callFunction (offset : Int) : List Line :=
  [.op .stm, .op .ltm, .op .ltm, .push offset, .op .add, .op .lw, .op .js]

/-- Keep the object on top of the stack as access link and jump through its dispatch table. -/
def dispatch (slot : Int) : List Line :=
  [.op .stm, .op .ltm, .op .ltm, .op .lw, .push slot, .op .add, .op .lw, .op .js]

/-- Compare the two values on top of the stack and leave 1 if the branch is taken, else 0. -/
def branchToBool (br : Branch) (n : Nat) : List Line :=
  [.branch br (.branch n), .push 0, .branch .always (.branch (n + 1)),
   .mark (.branch n), .push 1, .mark (.branch (n + 1))]

/-- Apply an operator to the two values on top of the stack.  A comparison takes two labels. -/
def operate (op : BinaryOp) (n : Nat) : List Line × Nat :=
  match op with
  | .plus => ([.op .add], n)
  | .minus => ([.op .sub], n)
  | .times => ([.op .mult], n)
  | .div => ([.op .div], n)
  | .equal => (branchToBool .equal n, n + 2)
  | .lessEqual => (branchToBool .lessEqual n, n + 2)
  | .greaterEqual | .and | .or => ([], n)

/-- Build the object from the arguments on the stack, which end up in the heap from the last to the
first, and the dispatch table of its class. -/
def construct (count : Nat) (classOffset : Int) : List Line :=
  (List.replicate count allocate).flatten ++ loadGlobal classOffset ++
    [Line.op .lhp, .op .sw, .op .lhp] ++ bumpHeap

/-- Evaluate the right operand only if the left one does not decide. -/
def shortCircuit (decisive : Int) (n : Nat) (left right : List Line) : List Line :=
  left ++ [Line.push decisive, .branch .equal (.branch n)] ++
  right ++ [Line.push decisive, .branch .equal (.branch n),
    .push (1 - decisive), .branch .always (.branch (n + 1)),
    .mark (.branch n), .push decisive, .mark (.branch (n + 1))]

end Code

open Code in
mutual

/-- The code of an expression, given the next free label number, and the next one after it.
An unresolved use has no code. -/
def Expr.code : Expr → Nat → List Line × Nat
  | .missing, n => ([], n)
  | .binary _ .and l r, n =>
    let (cl, m) := l.code (n + 2)
    let (cr, m) := r.code m
    (shortCircuit 0 n cl cr, m)
  | .binary _ .or l r, n =>
    let (cl, m) := l.code (n + 2)
    let (cr, m) := r.code m
    (shortCircuit 1 n cl cr, m)
  | .binary _ .greaterEqual l r, n =>
    let (cr, n) := r.code n
    let (cl, n) := l.code n
    (cr ++ cl ++ branchToBool .lessEqual n, n + 2)
  | .binary _ op l r, n =>
    let (cl, n) := l.code n
    let (cr, n) := r.code n
    let (co, n) := operate op n
    (cl ++ cr ++ co, n)
  | .not _ e, n =>
    let (c, n) := e.code n
    (c ++ [.push 0] ++ branchToBool .equal n, n + 2)
  | .cond _ c t e, n =>
    let (cc, m) := c.code (n + 2)
    let (ce, m) := e.code m
    let (ct, m) := t.code m
    (cc ++ [.push 1, .branch .equal (.branch n)] ++ ce ++
      [.branch .always (.branch (n + 1)), .mark (.branch n)] ++ ct ++ [.mark (.branch (n + 1))], m)
  | .print _ e, n =>
    let (c, n) := e.code n
    (c ++ [.op .print], n)
  | .int _ w, n => ([.push w.toInt], n)
  | .bool _ b, n => ([.push (if b then 1 else 0)], n)
  | .null _, n => ([.push nullPointer], n)
  | .id _ _ use, n => match use with
    | some u => (load u, n)
    | none => ([], n)
  | .call _ _ as use, n =>
    let (ca, n) := codeArgsLastFirst as n
    match use with
    | some u =>
      let jump := if u.entry.kind = .method then Code.dispatch u.entry.offset
        else callFunction u.entry.offset
      (.op .lfp :: (ca ++ frame u.hops ++ jump), n)
    | none => (.op .lfp :: ca, n)
  | .new _ _ as entry, n =>
    let (ca, n) := codeArgs as n
    match entry with
    | some e => (ca ++ Code.construct as.length e.offset, n)
    | none => (ca, n)
  | .send _ _ _ as use target, n =>
    let (ca, n) := codeArgsLastFirst as n
    match use, target with
    | some u, some t => (.op .lfp :: (ca ++ load u ++ Code.dispatch t.offset), n)
    | _, _ => (.op .lfp :: ca, n)

/-- The code of arguments, evaluated from the first to the last. -/
def codeArgs : List Expr → Nat → List Line × Nat
  | [], n => ([], n)
  | e :: es, n =>
    let (c, n) := e.code n
    let (cs, n) := codeArgs es n
    (c ++ cs, n)

/-- The code of arguments, evaluated from the last to the first. -/
def codeArgsLastFirst : List Expr → Nat → List Line × Nat
  | [], n => ([], n)
  | e :: es, n =>
    let (cs, n) := codeArgsLastFirst es n
    let (c, n) := e.code n
    (cs ++ c, n)

end

/-! ### Declarations -/

/-- What has been generated so far besides the code at hand: the next free numbers of labels, the
routines, and the dispatch tables of the classes. -/
structure Emitter where
  nextBranch : Nat := 0
  nextRoutine : Nat := 0
  routines : List Line := []
  dispatch : Table (List Slot) := []
  deriving Inhabited

namespace Emitter

/-- The code of an expression. -/
def expr (g : Emitter) (e : Expr) : List Line × Emitter :=
  let (c, n) := e.code g.nextBranch
  (c, { g with nextBranch := n })

/-- Take the label of the next routine. -/
def takeRoutine (g : Emitter) : Label × Emitter :=
  (.routine g.nextRoutine, { g with nextRoutine := g.nextRoutine + 1 })

/-- The dispatch table that a class starts from. -/
def inherited (g : Emitter) : Option Text → List Slot
  | none => []
  | some super => (g.dispatch.get? super).getD []

end Emitter

namespace Code

/-- Put a method into its slot, with empty slots before it if the table is shorter. -/
def setSlot (table : List Slot) (slot : Nat) (l : Label) : List Slot :=
  (table ++ List.replicate (slot + 1 - table.length) none).set slot (some l)

/-- The code of a routine around the code of its declarations and body. -/
def routine (l : Label) (decls params : Nat) (inside : List Line) : List Line :=
  [Line.mark l, .op .cfp, .op .lra] ++ inside ++ [Line.op .stm] ++
    List.replicate decls (Line.op .pop) ++ [Line.op .sra, .op .pop] ++
    List.replicate params (Line.op .pop) ++ [Line.op .sfp, .op .ltm, .op .lra, .op .js]

/-- Write a dispatch table into the heap and leave its address. -/
def writeTable (table : List Slot) : List Line :=
  .op .lhp :: table.flatMap fun s => .pushLabel s :: allocate

end Code

mutual

/-- The code that leaves the value of a declaration on the stack. -/
def Decl.code (g : Emitter) : Decl → List Line × Emitter
  | .var v => g.expr v.value
  | .fn r =>
    let (l, g) := g.takeRoutine
    ([.pushLabel (some l)], r.emit l g)
  | .cls c => c.code g

/-- Generate a routine after the ones inside it. -/
def Routine.emit (l : Label) (g : Emitter) : Routine → Emitter
  | ⟨_, _, _, params, decls, body⟩ =>
    let (cd, g) := codeDecls g decls
    let (cb, g) := g.expr body
    { g with
      routines := g.routines ++ Code.routine l decls.length params.length (cd ++ cb) }

/-- Generate the methods of a class and the code that leaves the address of its dispatch table. -/
def ClassDecl.code (g : Emitter) : ClassDecl → List Line × Emitter
  | ⟨_, name, super, _, methods, _, _⟩ =>
    let (table, g) := emitMethods g (g.inherited super) methods
    (Code.writeTable table, { g with dispatch := g.dispatch.put name table })

/-- The code of a list of declarations. -/
def codeDecls (g : Emitter) : List Decl → List Line × Emitter
  | [] => ([], g)
  | d :: ds =>
    let (c, g) := d.code g
    let (cs, g) := codeDecls g ds
    (c ++ cs, g)

/-- Generate methods and put them into a dispatch table. -/
def emitMethods (g : Emitter) (table : List Slot) : List Method → List Slot × Emitter
  | [] => (table, g)
  | ⟨r, offset⟩ :: ms =>
    let (l, g) := g.takeRoutine
    emitMethods (r.emit l g) (Code.setSlot table offset.toNat l) ms

end

/-- The code of a list of classes. -/
def codeClasses (g : Emitter) : List ClassDecl → List Line × Emitter
  | [] => ([], g)
  | c :: cs =>
    let (l, g) := c.code g
    let (ls, g) := codeClasses g cs
    (l ++ ls, g)

/-- The code of a program: its main part and its routines, and what is left for a next program. -/
structure Generated where
  main : List Line
  routines : List Line
  emitter : Emitter

namespace Generated

/-- All lines. -/
def lines (g : Generated) : List Line := g.main ++ g.routines

end Generated

/-- The code of a resolved program.  Label numbers go on from those already taken. -/
def Program.code (g : Emitter) (p : Program) : Generated :=
  let g := { g with routines := [] }
  let (cc, g) := codeClasses g p.classes
  let (cd, g) := codeDecls g p.decls
  let (cb, g) := g.expr p.body
  -- The first cell of the global frame stands for a return address.
  let start : List Line := if p.hasLet then [.push 0] else []
  let save : List Line := if p.classes.isEmpty then [] else Code.saveGlobalFrame
  ⟨start ++ save ++ cc ++ cd ++ cb ++ [.op .halt], g.routines, g⟩

/-! ### What must not be missing -/

/-- What makes code generation impossible: a missing expression, a name without an entry, or a
method whose slot is none. -/
inductive Gap where
  | missingExpr
  | unbound
  | noSlot
  deriving DecidableEq, Repr

mutual

/-- The first gap of an expression, in the order in which code is generated. -/
def Expr.gap? : Expr → Option Gap
  | .missing => some .missingExpr
  | .binary _ .greaterEqual l r => r.gap? <|> l.gap?
  | .binary _ _ l r => l.gap? <|> r.gap?
  | .not _ e => e.gap?
  | .cond _ c t e => c.gap? <|> e.gap? <|> t.gap?
  | .print _ e => e.gap?
  | .int _ _ => none
  | .bool _ _ => none
  | .null _ => none
  | .id _ _ use => if use.isSome then none else some .unbound
  | .call _ _ as use => gapLastFirst? as <|> if use.isSome then none else some .unbound
  | .new _ _ as entry => gapArgs? as <|> if entry.isSome then none else some .unbound
  | .send _ _ _ as use target =>
    gapLastFirst? as <|> if use.isSome && target.isSome then none else some .unbound

/-- The first gap of arguments, from the first to the last. -/
def gapArgs? : List Expr → Option Gap
  | [] => none
  | e :: es => e.gap? <|> gapArgs? es

/-- The first gap of arguments, from the last to the first. -/
def gapLastFirst? : List Expr → Option Gap
  | [] => none
  | e :: es => gapLastFirst? es <|> e.gap?

end

mutual

/-- The first gap of a declaration. -/
def Decl.gap? : Decl → Option Gap
  | .var v => v.value.gap?
  | .fn r => r.gap?
  | .cls c => c.gap?

/-- The first gap of a function or method. -/
def Routine.gap? : Routine → Option Gap
  | ⟨_, _, _, _, decls, body⟩ => gapDecls? decls <|> body.gap?

/-- The first gap of a class. -/
def ClassDecl.gap? : ClassDecl → Option Gap
  | ⟨_, _, _, _, methods, _, _⟩ => gapMethods? methods

/-- The first gap of a list of declarations. -/
def gapDecls? : List Decl → Option Gap
  | [] => none
  | d :: ds => d.gap? <|> gapDecls? ds

/-- The first gap of a list of methods.  A method is generated before it is put into its slot. -/
def gapMethods? : List Method → Option Gap
  | [] => none
  | ⟨r, offset⟩ :: ms =>
    r.gap? <|> (if offset < 0 then some .noSlot else none) <|> gapMethods? ms

end

/-- The first gap of a list of classes. -/
def gapClasses? : List ClassDecl → Option Gap
  | [] => none
  | c :: cs => c.gap? <|> gapClasses? cs

/-- The first gap of a program; without one, `Program.code` is its code. -/
def Program.gap? (p : Program) : Option Gap :=
  gapClasses? p.classes <|> gapDecls? p.decls <|> p.body.gap?

end Foolscap
