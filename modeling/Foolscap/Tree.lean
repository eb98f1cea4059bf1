import Foolscap.Entry
import Foolscap.Token

/-!
# Syntax trees

Programs as trees.  A tree comes from the parser or is built by hand; the latter may lack
expressions and types.  Resolving names fills in what every use of a name denotes and where the
members of a class lie, so a tree has room for that.
-/

namespace Foolscap

/-- The binary operators. -/
inductive BinaryOp where
  | plus | minus | times | div | equal | lessEqual | greaterEqual | and | or
  deriving DecidableEq, Repr

namespace BinaryOp

/-- The operator as it is written. -/
def sign : BinaryOp → Text
  | plus => "+"
  | minus => "-"
  | times => "*"
  | div => "/"
  | equal => "=="
  | lessEqual => "<="
  | greaterEqual => ">="
  | and => "&&"
  | or => "||"

/-- The operator that a token stands for between two operands. -/
def ofToken? : TokenKind → Option BinaryOp
  | .plus => some plus
  | .minus => some minus
  | .times => some times
  | .div => some div
  | .equal => some equal
  | .lessEqual => some lessEqual
  | .greaterEqual => some greaterEqual
  | .and => some and
  | .or => some or
  | _ => none

/-- The precedence level: the higher it is, the tighter the operator binds. -/
def level : BinaryOp → Nat
  | and | or => 0
  | equal | lessEqual | greaterEqual => 1
  | plus | minus => 2
  | times | div => 3

end BinaryOp

/-- An expression.  Uses of names have room for what they denote: a variable, a callee and a
receiver for a `Use`, a constructed class and a called method for an `Entry`. -/
inductive Expr where
  | missing
  | binary (span : Span) (op : BinaryOp) (left right : Expr)
  | not (span : Span) (operand : Expr)
  | cond (span : Span) (test yes no : Expr)
  | print (span : Span) (value : Expr)
  | int (span : Span) (value : Word)
  | bool (span : Span) (value : Bool)
  | null (span : Span)
  | id (span : Span) (name : Text) (use : Option Use)
  | call (span : Span) (name : Text) (args : List Expr) (use : Option Use)
  | new (span : Span) (name : Text) (args : List Expr) (entry : Option Entry)
  | send (span : Span) (receiver method : Text) (args : List Expr) (use : Option Use)
      (target : Option Entry)
  deriving Inhabited

namespace Expr

/-- The span of an expression; a missing one has none. -/
def span? : Expr → Option Span
  | missing => none
  | binary s .. | not s .. | cond s .. | print s .. | int s .. | bool s .. | null s
  | id s .. | call s .. | new s .. | send s .. => some s

end Expr

/-- A written type and its place. -/
structure Annotation where
  span : Span
  ty : Ty
  deriving Inhabited

/-- A formal parameter. -/
structure Param where
  span : Span
  name : Text
  annotation : Annotation
  deriving Inhabited

/-- A field of a class.  Its offset in the object is set when names are resolved. -/
structure Field where
  span : Span
  name : Text
  annotation : Annotation
  offset : Int := 0
  deriving Inhabited

/-- A variable and the expression it is bound to. -/
structure VarDecl where
  span : Span
  name : Text
  annotation : Annotation
  value : Expr
  deriving Inhabited

mutual

/-- A declaration. -/
inductive Decl where
  | var (v : VarDecl)
  | fn (r : Routine)
  | cls (c : ClassDecl)

/-- What functions and methods share: a signature, local declarations and a body. -/
structure Routine where
  span : Span
  name : Text
  ret : Annotation
  params : List Param
  decls : List Decl
  body : Expr

/-- A method of a class.  Its slot in the dispatch table is set when names are resolved. -/
structure Method where
  routine : Routine
  offset : Int

/-- A class.  What its own name and its superclass denote is set when names are resolved. -/
structure ClassDecl where
  span : Span
  name : Text
  super : Option Text
  fields : List Field
  methods : List Method
  entry : Option Entry
  superEntry : Option Entry

end

instance : Inhabited Routine := ⟨default, [], default, [], [], default⟩

instance : Inhabited ClassDecl := ⟨default, [], none, [], [], none, none⟩

instance : Inhabited Decl := ⟨.var default⟩

namespace Routine

/-- The type of the function or method. -/
def signature (r : Routine) : Ty :=
  .arrow (r.params.map fun p => p.annotation.ty) r.ret.ty

end Routine

namespace Decl

/-- The declared name. -/
def name : Decl → Text
  | var v => v.name
  | fn r => r.name
  | cls c => c.name

/-- The span of the declaration. -/
def span : Decl → Span
  | var v => v.span
  | fn r => r.span
  | cls c => c.span

end Decl

/-- A program: classes, other declarations, and the expression to evaluate. -/
structure Program where
  span : Span
  classes : List ClassDecl
  decls : List Decl
  body : Expr

namespace Program

/-- Whether the program declares anything. -/
def hasLet (p : Program) : Bool := !p.classes.isEmpty || !p.decls.isEmpty

end Program

end Foolscap
