import Foolscap.Diagnostic
import Foolscap.Token.Lexer
import Foolscap.Tree

/-!
# Parsing

From tokens to trees, by recursive descent:

```
prog    = "let" cldec* dec* "in" exp ";" | exp ";"
cldec   = "class" ID ["extends" ID] "(" params ")" "{" methdec* "}"
methdec = "fun" ID ":" type "(" params ")" ["let" dec+ "in"] exp ";"
dec     = "var" ID ":" type "=" exp ";" | methdec
params  = [ID ":" type {"," ID ":" type}]
type    = "int" | "bool" | ID
exp     = cmp {("&&" | "||") cmp}
cmp     = sum {("==" | "<=" | ">=") sum}
sum     = term {("+" | "-") term}
term    = factor {("*" | "/") factor}
factor  = "!" factor | "(" exp ")" | ["-"] NUM | "true" | "false" | "null"
        | "new" ID "(" args ")" | "if" exp "then" "{" exp "}" "else" "{" exp "}"
        | "print" "(" exp ")" | ID | ID "(" args ")" | ID "." ID "(" args ")"
args    = [exp {"," exp}]
```

## Design Notes

A node's span runs from its first token to the last token consumed.  A parenthesised expression
keeps the span of what is inside, but an operator chain starts at the first token of its level, so
it includes opening parentheses.  Every nonterminal is reached through at most seven others before
a token is consumed; that bounds the fuel.
-/

namespace Foolscap

/-- The tokens not yet consumed, and where the last consumed one ended. -/
structure TokenInput where
  tokens : List Token
  lastStop : Position
  deriving Inhabited

/-- A reader of tokens that stops at the first error. -/
abbrev Parser := StateT TokenInput (Except Diagnostic)

namespace Parser

/-! ### Tokens -/

/-- Stop with an error at a place. -/
def failAt {α : Type} (pos : Position) (e : SyntaxError) : Parser α :=
  throw ⟨pos, .parsing e⟩

/-- The token to be consumed next. -/
def current : Parser Token := return (← get).tokens.headD default

/-- The token after the current one; the last token of the input follows itself. -/
def following : Parser Token := do
  match (← get).tokens with
  | _ :: t :: _ => return t
  | t :: _ => return t
  | [] => return default

/-- Stop if the current token is a lexical error. -/
def checkLexical : Parser Unit := do
  let t ← current
  if t.kind = .error then failAt t.pos (.lexical t.literal)

/-- Consume the current token. -/
def advance : Parser Unit := do
  modify fun s => match s.tokens with
    | t :: u :: rest => ⟨u :: rest, t.stop⟩
    | ts => ⟨ts, s.lastStop⟩
  checkLexical

/-- Whether the current token is of a kind. -/
def at? (k : TokenKind) : Parser Bool := return (← current).kind = k

/-- Consume a token of a kind. -/
def expect (k : TokenKind) : Parser Unit := do
  let t ← current
  if t.kind = k then advance else failAt t.pos (.expected k t)

/-- Consume an identifier. -/
def identifier : Parser Text := do
  let t ← current
  expect .identifier
  return t.literal

/-- The place where the current token starts. -/
def here : Parser Position := return (← current).pos

/-- The span from a place to the end of the last consumed token. -/
def spanFrom (start : Position) : Parser Span := return ⟨start, (← get).lastStop⟩

/-! ### Expressions -/

/-- An integer literal, with or without the minus sign that was consumed before it. -/
def integer (start : Position) (negative : Bool) : Parser Expr := do
  let t ← current
  let literal := if negative then 45 :: t.literal else t.literal
  match Text.toWord? literal with
  | none => failAt t.pos (.badInteger literal)
  | some n =>
    advance
    return .int (← spanFrom start) n

mutual

/-- An expression whose operators bind at least as tightly as a level; from level 4 on there are
none. -/
def exprAt : Nat → Nat → Parser Expr
  | 0, _ => do failAt (← here) .outOfFuel
  | fuel + 1, level =>
    if level < 4 then do
      let start ← here
      let left ← exprAt fuel (level + 1)
      chain fuel level start left
    else factor fuel

/-- The operators of one level that follow an operand, and their right operands. -/
def chain : Nat → Nat → Position → Expr → Parser Expr
  | 0, _, _, _ => do failAt (← here) .outOfFuel
  | fuel + 1, level, start, left => do
    match BinaryOp.ofToken? (← current).kind with
    | none => return left
    | some op =>
      if op.level = level then do
        advance
        let right ← exprAt fuel (level + 1)
        chain fuel level start (.binary (← spanFrom start) op left right)
      else return left

/-- An operand. -/
def factor : Nat → Parser Expr
  | 0 => do failAt (← here) .outOfFuel
  | fuel + 1 => do
    let t ← current
    match t.kind with
    | .not =>
      advance
      let operand ← factor fuel
      return .not (← spanFrom t.pos) operand
    | .lparen =>
      advance
      let e ← exprAt fuel 0
      expect .rparen
      return e
    | .minus =>
      let n ← following
      if n.kind = .integer then do
        advance
        integer t.pos true
      else failAt t.pos (.noNumber n)
    | .integer => integer t.pos false
    | .kwTrue =>
      advance
      return .bool (← spanFrom t.pos) true
    | .kwFalse =>
      advance
      return .bool (← spanFrom t.pos) false
    | .kwNull =>
      advance
      return .null (← spanFrom t.pos)
    | .kwNew =>
      advance
      let name ← identifier
      let as ← args fuel
      return .new (← spanFrom t.pos) name as none
    | .kwIf =>
      advance
      let test ← exprAt fuel 0
      expect .kwThen
      expect .lbrace
      let yes ← exprAt fuel 0
      expect .rbrace
      expect .kwElse
      expect .lbrace
      let no ← exprAt fuel 0
      expect .rbrace
      return .cond (← spanFrom t.pos) test yes no
    | .kwPrint =>
      advance
      expect .lparen
      let value ← exprAt fuel 0
      expect .rparen
      return .print (← spanFrom t.pos) value
    | .identifier =>
      advance
      if ← at? .lparen then do
        let as ← args fuel
        return .call (← spanFrom t.pos) t.literal as none
      else if ← at? .dot then do
        advance
        let method ← identifier
        let as ← args fuel
        return .send (← spanFrom t.pos) t.literal method as none none
      else return .id (← spanFrom t.pos) t.literal none
    | _ => failAt t.pos (.noExpression t)

/-- Arguments between parentheses. -/
def args : Nat → Parser (List Expr)
  | 0 => do failAt (← here) .outOfFuel
  | fuel + 1 => do
    expect .lparen
    if ← at? .rparen then do
      advance
      return []
    else do
      let as ← someArgs fuel
      expect .rparen
      return as

/-- One or more arguments. -/
def someArgs : Nat → Parser (List Expr)
  | 0 => do failAt (← here) .outOfFuel
  | fuel + 1 => do
    let a ← exprAt fuel 0
    if ← at? .comma then do
      advance
      return a :: (← someArgs fuel)
    else return [a]

end

/-- Fuel that is enough for the tokens left. -/
def fuelLeft : Parser Nat := return 8 * ((← get).tokens.length + 1)

/-- An expression. -/
def expr : Parser Expr := do exprAt (← fuelLeft) 0

/-! ### Declarations -/

/-- A written type. -/
def annotation : Parser Annotation := do
  let t ← current
  match t.kind with
  | .kwInt =>
    advance
    return ⟨t.span, .int⟩
  | .kwBool =>
    advance
    return ⟨t.span, .bool⟩
  | .identifier =>
    advance
    return ⟨t.span, .ref t.literal⟩
  | _ => failAt t.pos (.noType t)

/-- One or more parameters. -/
def someParams : Nat → Parser (List Param)
  | 0 => do failAt (← here) .outOfFuel
  | fuel + 1 => do
    let start ← here
    let name ← identifier
    expect .colon
    let ann ← annotation
    let p : Param := ⟨← spanFrom start, name, ann⟩
    if ← at? .comma then do
      advance
      return p :: (← someParams fuel)
    else return [p]

/-- Parameters between parentheses. -/
def params : Parser (List Param) := do
  expect .lparen
  let ps ← if ← at? .rparen then pure [] else someParams (← fuelLeft)
  expect .rparen
  return ps

/-- A variable declaration. -/
def varDecl : Parser VarDecl := do
  let start ← here
  expect .kwVar
  let name ← identifier
  expect .colon
  let ann ← annotation
  expect .assign
  let value ← expr
  expect .semicolon
  return ⟨← spanFrom start, name, ann, value⟩

mutual

/-- Variables and functions, as many as follow. -/
def declsFor : Nat → Parser (List Decl)
  | 0 => do failAt (← here) .outOfFuel
  | fuel + 1 => do
    match (← current).kind with
    | .kwVar =>
      let v ← varDecl
      return .var v :: (← declsFor fuel)
    | .kwFun =>
      let r ← routineFor fuel
      return .fn r :: (← declsFor fuel)
    | _ => return []

/-- A function or a method. -/
def routineFor : Nat → Parser Routine
  | 0 => do failAt (← here) .outOfFuel
  | fuel + 1 => do
    let start ← here
    expect .kwFun
    let name ← identifier
    expect .colon
    let ret ← annotation
    let ps ← params
    let ds ← if ← at? .kwLet then do
        advance
        let ds ← declsFor fuel
        let t ← current
        if ds.isEmpty then failAt t.pos (.noDeclaration t)
        expect .kwIn
        pure ds
      else pure []
    let body ← expr
    expect .semicolon
    return ⟨← spanFrom start, name, ret, ps, ds, body⟩

end

/-- Variables and functions, as many as follow. -/
def decls : Parser (List Decl) := do declsFor (← fuelLeft)

/-- Methods, as many as follow. -/
def methodsFor : Nat → Parser (List Method)
  | 0 => do failAt (← here) .outOfFuel
  | fuel + 1 => do
    if ← at? .kwFun then do
      let r ← routineFor (← fuelLeft)
      return ⟨r, 0⟩ :: (← methodsFor fuel)
    else return []

/-- A class. -/
def classDecl : Parser ClassDecl := do
  let start ← here
  expect .kwClass
  let name ← identifier
  let super ← if ← at? .kwExtends then do
      advance
      some <$> identifier
    else pure none
  let ps ← params
  expect .lbrace
  let methods ← methodsFor (← fuelLeft)
  expect .rbrace
  let fields := ps.map fun p => (⟨p.span, p.name, p.annotation, 0⟩ : Field)
  return ⟨← spanFrom start, name, super, fields, methods, none, none⟩

/-- Classes, as many as follow. -/
def classesFor : Nat → Parser (List ClassDecl)
  | 0 => do failAt (← here) .outOfFuel
  | fuel + 1 => do
    if ← at? .kwClass then do
      let c ← classDecl
      return c :: (← classesFor fuel)
    else return []

/-- The declarations after `let`, up to and including `in`. -/
def letPart : Parser (List ClassDecl × List Decl) := do
  advance
  let cs ← classesFor (← fuelLeft)
  let ds ← decls
  let t ← current
  if cs.isEmpty && ds.isEmpty then failAt t.pos (.noDeclaration t)
  expect .kwIn
  return (cs, ds)

/-- A whole program. -/
def program : Parser Program := do
  checkLexical
  let start ← here
  let (cs, ds) ← if ← at? .kwLet then letPart else pure ([], [])
  let body ← expr
  expect .semicolon
  let t ← current
  if t.kind ≠ .eof then failAt t.pos (.afterEnd t)
  return ⟨← spanFrom start, cs, ds, body⟩

end Parser

namespace Program

/-- The program that a sequence of tokens stands for. -/
def ofTokens (ts : List Token) : Except Diagnostic Program :=
  (Parser.program.run ⟨ts, default⟩).map Prod.fst

/-- The program that a text stands for, or the first thing wrong with it. -/
def parse (src : Text) : Except Diagnostic Program := ofTokens (Token.scan src)

end Program

end Foolscap
