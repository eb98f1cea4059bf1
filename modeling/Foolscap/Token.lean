import Foolscap.Position
import Foolscap.Text.Quoted

/-!
# Tokens

The lexical units of FOOL: literals, operators, delimiters, reserved words, and two marks that end
a token sequence, the end of input and a lexical error.
-/

namespace Foolscap

/-- The kind of a token. -/
inductive TokenKind where
  | eof | error
  | integer | identifier
  | plus | minus | times | div | equal | lessEqual | greaterEqual | and | or | not
  | lparen | rparen | lbrace | rbrace | comma | semicolon | colon | dot | assign
  | kwLet | kwIn | kwVar | kwFun | kwClass | kwExtends | kwNew | kwNull | kwTrue | kwFalse
  | kwIf | kwThen | kwElse | kwPrint | kwInt | kwBool
  deriving DecidableEq, Repr, Inhabited

namespace TokenKind

/-- Every kind, in the order of its number. -/
def all : List TokenKind :=
  [eof, error, integer, identifier,
   plus, minus, times, div, equal, lessEqual, greaterEqual, and, or, not,
   lparen, rparen, lbrace, rbrace, comma, semicolon, colon, dot, assign,
   kwLet, kwIn, kwVar, kwFun, kwClass, kwExtends, kwNew, kwNull, kwTrue, kwFalse,
   kwIf, kwThen, kwElse, kwPrint, kwInt, kwBool]

/-- The spelling of a kind with one spelling, and a name in capitals for the others. -/
def spelling : TokenKind → String
  | eof => "EOF" | error => "ERROR" | integer => "INTEGER" | identifier => "IDENTIFIER"
  | plus => "+" | minus => "-" | times => "*" | div => "/"
  | equal => "==" | lessEqual => "<=" | greaterEqual => ">="
  | and => "&&" | or => "||" | not => "!"
  | lparen => "(" | rparen => ")" | lbrace => "\x7b" | rbrace => "\x7d"
  | comma => "," | semicolon => ";" | colon => ":" | dot => "." | assign => "="
  | kwLet => "let" | kwIn => "in" | kwVar => "var" | kwFun => "fun" | kwClass => "class"
  | kwExtends => "extends" | kwNew => "new" | kwNull => "null"
  | kwTrue => "true" | kwFalse => "false" | kwIf => "if" | kwThen => "then" | kwElse => "else"
  | kwPrint => "print" | kwInt => "int" | kwBool => "bool"

/-- A kind as messages show it. -/
def name (k : TokenKind) : Text := k.spelling

/-- The kind with a given number. -/
def ofCode? (code : Int) : Option TokenKind :=
  if code < 0 then none else all[code.toNat]?

/-- What messages show for a number of a kind; a number without a kind is shown itself. -/
def nameOfCode (code : Int) : Text :=
  match ofCode? code with
  | some k => k.name
  | none => "Token(" ++ Text.ofInt code ++ ")"

/-- The reserved words. -/
def reserved : List TokenKind :=
  [kwLet, kwIn, kwVar, kwFun, kwClass, kwExtends, kwNew, kwNull, kwTrue, kwFalse,
   kwIf, kwThen, kwElse, kwPrint, kwInt, kwBool]

/-- The kind of a word: a reserved word's own kind, and `identifier` for any other. -/
def ofWord (w : Text) : TokenKind :=
  (reserved.find? fun k => k.name == w).getD identifier

/-- Whether a kind ends a token sequence. -/
def isLast (k : TokenKind) : Bool := k = eof || k = error

end TokenKind

/-- A lexical unit.  The literal of an error is its message. -/
structure Token where
  kind : TokenKind
  literal : Text
  pos : Position
  deriving DecidableEq, Repr, Inhabited

namespace Token

/-- A literal in quotes after the name of its kind; past 20 bytes it is cut and followed by dots. -/
def labelled (name literal : Text) : Text :=
  if literal.length > 20 then name ++ "(" ++ Text.quoted (literal.take 20) ++ "...)"
  else name ++ "(" ++ literal.quoted ++ ")"

/-- What messages show for a token with a given number of its kind. -/
def describeCode (code : Int) (literal : Text) : Text :=
  match TokenKind.ofCode? code with
  | some .eof => "EOF"
  | some .error => "ERROR(" ++ literal ++ ")"
  | _ => labelled (TokenKind.nameOfCode code) literal

/-- A token as messages show it. -/
def describe (t : Token) : Text :=
  match t.kind with
  | .eof => "EOF"
  | .error => "ERROR(" ++ t.literal ++ ")"
  | k => labelled k.name t.literal

/-- The place after the token's literal. -/
def stop (t : Token) : Position := t.pos.forward t.literal.length

/-- The span of the token's literal. -/
def span (t : Token) : Span := ⟨t.pos, t.stop⟩

end Token

end Foolscap
