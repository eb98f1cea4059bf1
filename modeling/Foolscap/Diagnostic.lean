import Foolscap.Token
import Foolscap.Ty

/-!
# Diagnostics

What can be wrong with a program, found while parsing it, resolving its names and checking its
types.
-/

namespace Foolscap

/-- Why a text is not a program. -/
inductive SyntaxError where
  | lexical (message : Text)
  | expected (want : TokenKind) (got : Token)
  | afterEnd (got : Token)
  | noDeclaration (got : Token)
  | noType (got : Token)
  | noNumber (got : Token)
  | badInteger (literal : Text)
  | noExpression (got : Token)
  | outOfFuel
  deriving DecidableEq, Repr

namespace SyntaxError

/-- The wording of a syntax error. -/
def message : SyntaxError → Text
  | lexical m => m
  | expected want got => "expected " ++ want.name ++ ", got " ++ got.describe
  | afterEnd got => "unexpected " ++ got.describe ++ " after end of program"
  | noDeclaration got => "expected a declaration after let, got " ++ got.describe
  | noType got => "expected a type, got " ++ got.describe
  | noNumber got => "expected a number after -, got " ++ got.describe
  | badInteger literal => "invalid integer " ++ literal
  | noExpression got => "unexpected " ++ got.describe ++ " in expression"
  | outOfFuel => "out of fuel"

end SyntaxError

/-- What a name in a scope is declared as, in messages. -/
inductive Declared where
  | var | par | fn | cls
  deriving DecidableEq, Repr

namespace Declared

/-- The word for it. -/
def display : Declared → Text
  | var => "var"
  | par => "par"
  | fn => "fun"
  | cls => "class"

end Declared

/-- Why the names of a program cannot be resolved. -/
inductive ScopeError where
  | redeclared (what : Declared) (name : Text)
  | badSuper (name super : Text)
  | fieldRedeclared (field cls : Text)
  | fieldOverMethod (field cls : Text)
  | methodRedeclared (method cls : Text)
  | methodOverField (method cls : Text)
  | noClass (name : Text)
  | noVariable (name : Text)
  | noFunction (name : Text)
  | notClass (name : Text)
  | noObject (name : Text)
  | notObject (name : Text)
  | noClassOf (cls object : Text)
  | noMethod (object cls method : Text)
  deriving DecidableEq, Repr

namespace ScopeError

/-- The wording of a scope error. -/
def message : ScopeError → Text
  | redeclared what name => what.display ++ " " ++ name ++ " already declared"
  | badSuper name super => "class " ++ name ++ " extends undeclared class " ++ super
  | fieldRedeclared f c => "field " ++ f ++ " already declared in class " ++ c
  | fieldOverMethod f c => "field " ++ f ++ " of class " ++ c ++ " overrides a method"
  | methodRedeclared m c => "method " ++ m ++ " already declared in class " ++ c
  | methodOverField m c => "method " ++ m ++ " of class " ++ c ++ " overrides a field"
  | noClass name => "class " ++ name ++ " not declared"
  | noVariable name => "var or par " ++ name ++ " not declared"
  | noFunction name => "fun " ++ name ++ " not declared"
  | notClass name => name ++ " is not a class"
  | noObject name => "object " ++ name ++ " not declared"
  | notObject name => name ++ " is not an object reference"
  | noClassOf c o => "class " ++ c ++ " of object " ++ o ++ " not declared"
  | noMethod o c m => "object " ++ o ++ " of class " ++ c ++ " has no method " ++ m

end ScopeError

/-- Why a program is ill-typed. -/
inductive TypeError where
  | badValue (name : Text) (got want : Ty)
  | badReturn (isMethod : Bool) (name : Text) (got want : Ty)
  | badField (field cls : Text) (got want : Ty)
  | badOverride (method cls : Text) (got want : Ty)
  | badNegation
  | badCondition
  | unrelatedBranches (yes no : Ty)
  | unresolvedFunction (name : Text)
  | unresolvedIdentifier (name : Text)
  | unresolvedClass (name : Text)
  | unresolvedMethod (object method : Text)
  | notFunction (name : Text)
  | notMethod (object method : Text)
  | notClass (name : Text)
  | functionAsValue (name : Text)
  | classAsValue (name : Text)
  | badArity (name : Text) (got want : Nat)
  | badArgument (position : Nat) (name : Text) (got want : Ty)
  | badFieldArity (name : Text) (got want : Nat)
  | badFieldArgument (position : Nat) (name : Text) (got want : Ty)
  | notIntegers (sign : Text)
  | unrelatedOperands (sign : Text) (left right : Ty)
  | notBooleans (sign : Text)

namespace TypeError

/-- That one type is not a subtype of another. -/
def isNot (got want : Ty) : Text := got.display ++ " is not a subtype of " ++ want.display

/-- The wording of a type error. -/
def message : TypeError → Text
  | badValue name got want => "incompatible value for variable " ++ name ++ ": " ++ isNot got want
  | badReturn isMethod name got want =>
    "wrong return type for " ++ (if isMethod then "method " else "function ") ++ name ++ ": " ++
      isNot got want
  | badField f c got want => "wrong type for field " ++ f ++ " of class " ++ c ++ ": " ++
      isNot got want
  | badOverride m c got want =>
    "wrong type for method " ++ m ++ " of class " ++ c ++ ": " ++ got.display ++
      " does not override " ++ want.display
  | badNegation => "non boolean operand in !"
  | badCondition => "non boolean condition in if"
  | unrelatedBranches yes no =>
    "incompatible types in then-else branches: " ++ yes.display ++ " and " ++ no.display
  | unresolvedFunction name => "unresolved function " ++ name
  | unresolvedIdentifier name => "unresolved identifier " ++ name
  | unresolvedClass name => "unresolved class " ++ name
  | unresolvedMethod o m => "unresolved method " ++ o ++ "." ++ m
  | notFunction name => "invocation of a non-function " ++ name
  | notMethod o m => "invocation of a non-method " ++ o ++ "." ++ m
  | notClass name => "invocation of a non-class " ++ name
  | functionAsValue name => "wrong usage of function identifier " ++ name
  | classAsValue name => "wrong usage of class identifier " ++ name
  | badArity name got want =>
    "wrong number of parameters in the invocation of " ++ name ++ ": got " ++ Text.ofNat got ++
      ", want " ++ Text.ofNat want
  | badArgument i name got want =>
    "wrong type for parameter " ++ Text.ofNat i ++ " in the invocation of " ++ name ++ ": " ++
      isNot got want
  | badFieldArity name got want =>
    "wrong number of parameters in the instantiation of " ++ name ++ ": got " ++ Text.ofNat got ++
      ", want " ++ Text.ofNat want
  | badFieldArgument i name got want =>
    "wrong type for field " ++ Text.ofNat i ++ " in the instantiation of " ++ name ++ ": " ++
      isNot got want
  | notIntegers sign => "non integers in " ++ sign
  | unrelatedOperands sign left right =>
    "incompatible types in " ++ sign ++ ": " ++ left.display ++ " and " ++ right.display
  | notBooleans sign => "non booleans in " ++ sign

end TypeError

/-- The part of the front end that found an error. -/
inductive Phase where
  | parsing | scoping | typing
  deriving DecidableEq, Repr

namespace Phase

/-- The phase as messages name it. -/
def display : Phase → Text
  | parsing => "Syntax"
  | scoping => "Scope"
  | typing => "Type"

end Phase

/-- The cause of a diagnostic. -/
inductive Cause where
  | parsing (e : SyntaxError)
  | scoping (e : ScopeError)
  | typing (e : TypeError)

namespace Cause

/-- The phase that finds a cause. -/
def phase : Cause → Phase
  | parsing _ => .parsing
  | scoping _ => .scoping
  | typing _ => .typing

/-- The wording of a cause. -/
def message : Cause → Text
  | parsing e => e.message
  | scoping e => e.message
  | typing e => e.message

end Cause

namespace Report

/-- One diagnostic as a line. -/
def line (phase : Text) (number : Int) (message : Text) : Text :=
  phase ++ " error at line " ++ Text.ofInt number ++ ": " ++ message

/-- Several diagnostics as one text: a single one is its line, more are counted and indented. -/
def summary : List Text → Text
  | [] => "no errors"
  | [l] => l
  | ls => Text.ofNat ls.length ++ " errors:" ++ ls.flatMap fun l => Text.ofString "\n  " ++ l

end Report

/-- Something wrong at a place. -/
structure Diagnostic where
  pos : Position
  cause : Cause

namespace Diagnostic

/-- The phase that found it. -/
def phase (d : Diagnostic) : Phase := d.cause.phase

/-- What is wrong. -/
def message (d : Diagnostic) : Text := d.cause.message

/-- The diagnostic as a line. -/
def display (d : Diagnostic) : Text := Report.line d.phase.display d.pos.line d.message

/-- Several diagnostics as one text. -/
def displayAll (ds : List Diagnostic) : Text := Report.summary (ds.map display)

end Diagnostic

end Foolscap
