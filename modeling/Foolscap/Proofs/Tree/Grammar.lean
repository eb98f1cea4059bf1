import Foolscap.Tree
import Mathlib.Algebra.Ring.Int.Defs

/-!
# The grammar

The grammar that `Foolscap.Tree.Parser` writes down, as a relation between sequences of tokens and
trees with one rule for each alternative.  There are declarations behind every `let`.

The trees have neither places nor bindings, and their integers have no bounds.

## Design Notes

The operators of one level are written as a repetition, as in the grammar, and the tree is the left
fold of the operands, so operators of one level associate to the left.
-/

namespace Foolscap

/-! ### Trees without places -/

/-- An expression without places and bindings. -/
inductive Phrase where
  | missing
  | binary (op : BinaryOp) (left right : Phrase)
  | not (operand : Phrase)
  | cond (test yes no : Phrase)
  | print (value : Phrase)
  | int (value : Int)
  | bool (value : Bool)
  | null
  | id (name : Text)
  | call (name : Text) (args : List Phrase)
  | new (name : Text) (args : List Phrase)
  | send (receiver method : Text) (args : List Phrase)

/-- A declaration without places and bindings. -/
inductive Clause where
  | var (name : Text) (ty : Ty) (value : Phrase)
  | fn (name : Text) (ret : Ty) (params : List (Text × Ty)) (decls : List Clause) (body : Phrase)
  | cls (name : Text) (super : Option Text) (fields : List (Text × Ty)) (methods : List Clause)

/-- A program without places and bindings. -/
structure Script where
  classes : List Clause
  decls : List Clause
  body : Phrase

mutual

/-- An expression without its places and bindings. -/
def Expr.phrase : Expr → Phrase
  | .missing => .missing
  | .binary _ op l r => .binary op l.phrase r.phrase
  | .not _ e => .not e.phrase
  | .cond _ c t e => .cond c.phrase t.phrase e.phrase
  | .print _ e => .print e.phrase
  | .int _ w => .int w.toInt
  | .bool _ b => .bool b
  | .null _ => .null
  | .id _ name _ => .id name
  | .call _ name as _ => .call name (phrases as)
  | .new _ name as _ => .new name (phrases as)
  | .send _ receiver method as _ _ => .send receiver method (phrases as)

/-- Expressions without their places and bindings. -/
def phrases : List Expr → List Phrase
  | [] => []
  | e :: es => e.phrase :: phrases es

end

mutual

/-- A declaration without its places and bindings. -/
def Decl.clause : Decl → Clause
  | .var v => .var v.name v.annotation.ty v.value.phrase
  | .fn r => r.clause
  | .cls c => c.clause

/-- A function or method without its places and bindings. -/
def Routine.clause : Routine → Clause
  | ⟨_, name, ret, params, decls, body⟩ =>
    .fn name ret.ty (params.map fun p => (p.name, p.annotation.ty)) (clauses decls) body.phrase

/-- A class without its places and bindings. -/
def ClassDecl.clause : ClassDecl → Clause
  | ⟨_, name, super, fields, methods, _, _⟩ =>
    .cls name super (fields.map fun f => (f.name, f.annotation.ty)) (methodClauses methods)

/-- Declarations without their places and bindings. -/
def clauses : List Decl → List Clause
  | [] => []
  | d :: ds => d.clause :: clauses ds

/-- Methods without their places and bindings. -/
def methodClauses : List Method → List Clause
  | [] => []
  | ⟨r, _⟩ :: ms => r.clause :: methodClauses ms

end

/-- A program without its places and bindings. -/
def Program.script (p : Program) : Script :=
  ⟨p.classes.map ClassDecl.clause, clauses p.decls, p.body.phrase⟩

/-! ### Integers -/

mutual

/-- Every integer of an expression lies in the signed 64-bit range. -/
def Phrase.InRange : Phrase → Prop
  | .missing | .bool _ | .null | .id _ => True
  | .binary _ l r => l.InRange ∧ r.InRange
  | .not e | .print e => e.InRange
  | .cond c t e => c.InRange ∧ t.InRange ∧ e.InRange
  | .int n => -2 ^ 63 ≤ n ∧ n < 2 ^ 63
  | .call _ as | .new _ as | .send _ _ as => PhrasesInRange as

/-- Every integer of some expressions lies in the signed 64-bit range. -/
def PhrasesInRange : List Phrase → Prop
  | [] => True
  | e :: es => e.InRange ∧ PhrasesInRange es

end

mutual

/-- Every integer of a declaration lies in the signed 64-bit range. -/
def Clause.InRange : Clause → Prop
  | .var _ _ value => value.InRange
  | .fn _ _ _ decls body => ClausesInRange decls ∧ body.InRange
  | .cls _ _ _ methods => ClausesInRange methods

/-- Every integer of some declarations lies in the signed 64-bit range. -/
def ClausesInRange : List Clause → Prop
  | [] => True
  | d :: ds => d.InRange ∧ ClausesInRange ds

end

/-- Every integer of a program lies in the signed 64-bit range. -/
def Script.InRange (s : Script) : Prop :=
  ClausesInRange s.classes ∧ ClausesInRange s.decls ∧ s.body.InRange

/-! ### Rules -/

namespace Grammar

/-- One token of a kind. -/
def Mark (k : TokenKind) (ts : List Token) : Prop := ∃ t, ts = [t] ∧ t.kind = k

/-- An identifier. -/
def Name (name : Text) (ts : List Token) : Prop :=
  ∃ t, ts = [t] ∧ t.kind = .identifier ∧ t.literal = name

/-- A number and its value. -/
def Numeral (n : Nat) (ts : List Token) : Prop :=
  ∃ t, ts = [t] ∧ t.kind = .integer ∧ Text.toNat? t.literal = some n

variable {ts : List Token}

theorem Mark.length {k : TokenKind} (h : Mark k ts) : ts.length = 1 := by
  obtain ⟨t, rfl, -⟩ := h
  rfl

theorem Mark.kind_headD {k : TokenKind} (h : Mark k ts) (rest : List Token) :
    ((ts ++ rest).headD default).kind = k := by
  obtain ⟨t, rfl, hk⟩ := h
  exact hk

theorem Name.length {name : Text} (h : Name name ts) : ts.length = 1 := by
  obtain ⟨t, rfl, -⟩ := h
  rfl

theorem Name.mark {name : Text} (h : Name name ts) : Mark .identifier ts := by
  obtain ⟨t, ht, hk, -⟩ := h
  exact ⟨t, ht, hk⟩

theorem Numeral.mark {n : Nat} (h : Numeral n ts) : Mark .integer ts := by
  obtain ⟨t, ht, hk, -⟩ := h
  exact ⟨t, ht, hk⟩

section

variable {α : Type}

/-- Any number of parts, one after the other. -/
inductive Many (P : List Token → α → Prop) : List Token → List α → Prop where
  | nil : Many P [] []
  | cons {ts us : List Token} {a : α} {as : List α} (head : P ts a) (tail : Many P us as) :
      Many P (ts ++ us) (a :: as)

/-- One or more parts with commas between them. -/
inductive Separated (P : List Token → α → Prop) : List Token → List α → Prop where
  | one {ts : List Token} {a : α} (head : P ts a) : Separated P ts [a]
  | more {ts comma us : List Token} {a : α} {as : List α} (head : P ts a)
      (mark : Mark .comma comma) (tail : Separated P us as) :
      Separated P (ts ++ (comma ++ us)) (a :: as)

/-- Parts with commas between them, in parentheses. -/
inductive Enclosed (P : List Token → α → Prop) : List Token → List α → Prop where
  | none {l r : List Token} (left : Mark .lparen l) (right : Mark .rparen r) :
      Enclosed P (l ++ r) []
  | some {l ts r : List Token} {as : List α} (left : Mark .lparen l) (parts : Separated P ts as)
      (right : Mark .rparen r) : Enclosed P (l ++ (ts ++ r)) as

end

/-- Parts in parentheses start with one. -/
theorem Enclosed.exists_mark {α : Type} {P : List Token → α → Prop} {as : List α}
    (h : Enclosed P ts as) : ∃ l us, ts = l ++ us ∧ Mark .lparen l := by
  cases h with
  | none hl _ | some hl _ _ => exact ⟨_, _, rfl, hl⟩

/-- The tokens and the operators of a level. -/
def operators : Nat → List (TokenKind × BinaryOp)
  | 0 => [(.and, .and), (.or, .or)]
  | 1 => [(.equal, .equal), (.lessEqual, .lessEqual), (.greaterEqual, .greaterEqual)]
  | 2 => [(.plus, .plus), (.minus, .minus)]
  | 3 => [(.times, .times), (.div, .div)]
  | _ => []

/-- The tree of operands with operators between them, from left to right. -/
def leftAssociated (first : Phrase) (rest : List (BinaryOp × Phrase)) : Phrase :=
  rest.foldl (fun left next => .binary next.1 left next.2) first

mutual

/-- Expressions: at levels 0 to 3 operands of the next level with operators of the level between
them, at level 4 factors. -/
inductive ExprOf : Nat → List Token → Phrase → Prop where
  | operation {level : Nat} {ts us : List Token} {first : Phrase}
      {rest : List (BinaryOp × Phrase)} :
      level < 4 → ExprOf (level + 1) ts first → OperandsOf level us rest →
      ExprOf level (ts ++ us) (leftAssociated first rest)
  | factor {ts : List Token} {e : Phrase} : FactorOf ts e → ExprOf 4 ts e

/-- Operators of a level, each with the operand after it. -/
inductive OperandsOf : Nat → List Token → List (BinaryOp × Phrase) → Prop where
  | nil {level : Nat} : OperandsOf level [] []
  | cons {level : Nat} {k : TokenKind} {op : BinaryOp} {o ts us : List Token} {e : Phrase}
      {rest : List (BinaryOp × Phrase)} :
      (k, op) ∈ operators level → Mark k o → ExprOf (level + 1) ts e → OperandsOf level us rest →
      OperandsOf level (o ++ (ts ++ us)) ((op, e) :: rest)

/-- Factors. -/
inductive FactorOf : List Token → Phrase → Prop where
  | not {n ts : List Token} {e : Phrase} : Mark .not n → FactorOf ts e → FactorOf (n ++ ts) (.not e)
  | parens {l ts r : List Token} {e : Phrase} : Mark .lparen l → ExprOf 0 ts e → Mark .rparen r →
      FactorOf (l ++ (ts ++ r)) e
  | int {ts : List Token} {n : Nat} : Numeral n ts → FactorOf ts (.int n)
  | negative {m ts : List Token} {n : Nat} : Mark .minus m → Numeral n ts →
      FactorOf (m ++ ts) (.int (-n))
  | yes {ts : List Token} : Mark .kwTrue ts → FactorOf ts (.bool true)
  | no {ts : List Token} : Mark .kwFalse ts → FactorOf ts (.bool false)
  | null {ts : List Token} : Mark .kwNull ts → FactorOf ts .null
  | new {n i ts : List Token} {name : Text} {as : List Phrase} : Mark .kwNew n → Name name i →
      Enclosed (ExprOf 0) ts as → FactorOf (n ++ (i ++ ts)) (.new name as)
  | cond {i cs t tl ts tr e el es er : List Token} {test yes no : Phrase} : Mark .kwIf i →
      ExprOf 0 cs test → Mark .kwThen t → Mark .lbrace tl → ExprOf 0 ts yes → Mark .rbrace tr →
      Mark .kwElse e → Mark .lbrace el → ExprOf 0 es no → Mark .rbrace er →
      FactorOf (i ++ (cs ++ (t ++ (tl ++ (ts ++ (tr ++ (e ++ (el ++ (es ++ er)))))))))
        (.cond test yes no)
  | print {p l ts r : List Token} {e : Phrase} : Mark .kwPrint p → Mark .lparen l →
      ExprOf 0 ts e → Mark .rparen r → FactorOf (p ++ (l ++ (ts ++ r))) (.print e)
  | id {ts : List Token} {name : Text} : Name name ts → FactorOf ts (.id name)
  | call {i ts : List Token} {name : Text} {as : List Phrase} : Name name i →
      Enclosed (ExprOf 0) ts as → FactorOf (i ++ ts) (.call name as)
  | send {i d m ts : List Token} {receiver method : Text} {as : List Phrase} :
      Name receiver i → Mark .dot d → Name method m → Enclosed (ExprOf 0) ts as →
      FactorOf (i ++ (d ++ (m ++ ts))) (.send receiver method as)

end

/-- Types. -/
inductive TypeOf : List Token → Ty → Prop where
  | int {ts : List Token} : Mark .kwInt ts → TypeOf ts .int
  | bool {ts : List Token} : Mark .kwBool ts → TypeOf ts .bool
  | ref {ts : List Token} {name : Text} : Name name ts → TypeOf ts (.ref name)

/-- A parameter or a field. -/
inductive ParamOf : List Token → Text × Ty → Prop where
  | mk {i c ts : List Token} {name : Text} {ty : Ty} : Name name i → Mark .colon c →
      TypeOf ts ty → ParamOf (i ++ (c ++ ts)) (name, ty)

mutual

/-- Variables and functions. -/
inductive DeclOf : List Token → Clause → Prop where
  | var {v i c ts a us s : List Token} {name : Text} {ty : Ty} {value : Phrase} :
      Mark .kwVar v → Name name i → Mark .colon c → TypeOf ts ty → Mark .assign a →
      ExprOf 0 us value → Mark .semicolon s →
      DeclOf (v ++ (i ++ (c ++ (ts ++ (a ++ (us ++ s)))))) (.var name ty value)
  | fn {ts : List Token} {d : Clause} : RoutineOf ts d → DeclOf ts d

/-- Functions and methods. -/
inductive RoutineOf : List Token → Clause → Prop where
  | mk {f i c ts ps ls us s : List Token} {name : Text} {ret : Ty} {params : List (Text × Ty)}
      {decls : List Clause} {body : Phrase} : Mark .kwFun f → Name name i → Mark .colon c →
      TypeOf ts ret → Enclosed ParamOf ps params → LocalsOf ls decls → ExprOf 0 us body →
      Mark .semicolon s →
      RoutineOf (f ++ (i ++ (c ++ (ts ++ (ps ++ (ls ++ (us ++ s)))))))
        (.fn name ret params decls body)

/-- The local declarations of a function or method: none, or one or more. -/
inductive LocalsOf : List Token → List Clause → Prop where
  | none : LocalsOf [] []
  | some {l ts i : List Token} {ds : List Clause} : Mark .kwLet l → Many DeclOf ts ds → ds ≠ [] →
      Mark .kwIn i → LocalsOf (l ++ (ts ++ i)) ds

end

/-- The superclass of a class. -/
inductive SuperOf : List Token → Option Text → Prop where
  | none : SuperOf [] none
  | some {e i : List Token} {name : Text} : Mark .kwExtends e → Name name i →
      SuperOf (e ++ i) (some name)

/-- Classes. -/
inductive ClassOf : List Token → Clause → Prop where
  | mk {c i es ps l ms r : List Token} {name : Text} {super : Option Text}
      {fields : List (Text × Ty)} {methods : List Clause} : Mark .kwClass c → Name name i →
      SuperOf es super → Enclosed ParamOf ps fields → Mark .lbrace l → Many RoutineOf ms methods →
      Mark .rbrace r →
      ClassOf (c ++ (i ++ (es ++ (ps ++ (l ++ (ms ++ r)))))) (.cls name super fields methods)

/-- The declarations of a program: none, or one or more. -/
inductive GlobalsOf : List Token → List Clause → List Clause → Prop where
  | none : GlobalsOf [] [] []
  | some {l cs ds i : List Token} {classes decls : List Clause} : Mark .kwLet l →
      Many ClassOf cs classes → Many DeclOf ds decls → (classes ≠ [] ∨ decls ≠ []) →
      Mark .kwIn i → GlobalsOf (l ++ (cs ++ (ds ++ i))) classes decls

/-- Programs. -/
inductive ScriptOf : List Token → Script → Prop where
  | mk {gs ts s : List Token} {classes decls : List Clause} {body : Phrase} :
      GlobalsOf gs classes decls → ExprOf 0 ts body → Mark .semicolon s →
      ScriptOf (gs ++ (ts ++ s)) ⟨classes, decls, body⟩

end Grammar

end Foolscap
