import LetLang.Parser.Cursor

/-! # From tokens to programs

```
source         → declaration* method* ;
declaration    → "LET" NAME ( ":" NAME )? ( "=" expression )? ";" ;
method         → "DEF" NAME "(" ( parameter ( "," parameter )* )? ")" ( ":" NAME )?
                 "DO" statement* "END" ;
parameter      → NAME ( ":" NAME )? ;
statement      → declaration | if | for | while | return | expression ( "=" expression )? ";" ;
if             → "IF" expression "DO" statement* ( "ELSE" statement* )? "END" ;
for            → "FOR" NAME "IN" expression "DO" statement* "END" ;
while          → "WHILE" expression "DO" statement* "END" ;
return         → "RETURN" expression ";" ;
expression     → logical ;
logical        → comparison ( ( "AND" | "OR" ) comparison )* ;
comparison     → additive ( ( "<" | "<=" | ">" | ">=" | "==" | "!=" ) additive )* ;
additive       → multiplicative ( ( "+" | "-" ) multiplicative )* ;
multiplicative → secondary ( ( "*" | "/" ) secondary )* ;
secondary      → primary ( "." NAME ( "(" arguments? ")" )? )* ;
primary        → LITERAL | NAME ( "(" arguments? ")" )? | "(" expression ")" ;
arguments      → expression ( "," expression )* ;
```

Each rule is a function of the rules that it may enter again, and `expression` and
`block` close the circle.  Both go one level deeper before they do anything else, so
`maxNesting + 1` turns of the circle are enough: whoever needs one more has been told
that the program is nested too deeply.

Node numbers are drawn when a node is complete, so a node has a larger number than
everything inside it. -/

namespace LetLang

namespace Parse

/-! ## Expressions -/

/-- The arguments of a call, behind the opening parenthesis. -/
def arguments (expression : Parse Expr) : Parse (List Expr) := do
  if ← accept ")" then pure []
  else
    let items ← commaList expression
    expect ")"
    pure items

/-- A literal, a variable, a call or an expression in parentheses. -/
def primary (expression : Parse Expr) : Parse Expr := do
  match ← peek with
  | none => fail .expectedExpression
  | some t =>
    match Literal.ofToken? t with
    | some value => do
      advance
      return .literal (← fresh) value
    | none =>
      match t.kind with
      | .identifier => do
        advance
        if ← accept "(" then
          let items ← arguments expression
          return .call (← fresh) t.lexeme items
        else return .var (← fresh) t.lexeme
      | .operator =>
        if t.lexeme = "(" then do
          advance
          let inner ← expression
          if ← accept ")" then return .group (← fresh) inner
          else fail .unterminatedParenthesis
        else fail .expectedExpression
      | _ => fail .invalidLiteral

/-- The fields and method calls chained onto `receiver`. -/
def links (expression : Parse Expr) : Nat → Expr → Parse Expr
  | 0, receiver => pure receiver
  | n + 1, receiver => do
    if ← accept "." then
      enter
      let name ← identifier
      if ← accept "(" then
        let items ← arguments expression
        links expression n (.invoke (← fresh) receiver name items)
      else links expression n (.field (← fresh) receiver name)
    else pure receiver

/-- A primary expression and what is chained onto it with dots. -/
def secondary (expression : Parse Expr) : Parse Expr :=
  restoringDepth do
    let first ← primary expression
    links expression (← remaining) first

/-- The operator of the given level that comes next, if one does. -/
def operatorAt (level : Level) : Parse (Option Operator) := fun c =>
  .ok (level.operators.find? fun o => c.sees o.symbol) c

/-- The operators and right operands that follow the operand `left`.  A chain grows the
    tree by one level for each operator. -/
def chain (level : Level) (operand : Parse Expr) : Nat → Expr → Parse Expr
  | 0, left => pure left
  | n + 1, left => do
    match ← operatorAt level with
    | none => pure left
    | some operator =>
      enter
      advance
      let right ← operand
      chain level operand n (.binary (← fresh) operator left right)

/-- Operands of one level of binding, combined from the left. -/
def binaryLevel (level : Level) (operand : Parse Expr) : Parse Expr :=
  restoringDepth do
    let left ← operand
    chain level operand (← remaining) left

/-- An expression whose parts may nest `n` levels of expressions. -/
def expressionWithin : Nat → Parse Expr
  | 0 => fail .tooDeep
  | n + 1 =>
    restoringDepth do
      enter
      let tight := binaryLevel .multiplicative (secondary (expressionWithin n))
      binaryLevel .logical (binaryLevel .comparison (binaryLevel .additive tight))

/-- An expression. -/
def expression : Parse Expr := expressionWithin (maxNesting + 1)

/-! ## Statements -/

/-- A type after a colon, if there is one. -/
def annotation : Parse (Option String) := do
  if ← accept ":" then
    let name ← identifier
    pure (some name)
  else pure none

/-- The value after an equals sign, if there is one. -/
def initialValue : Parse (Option Expr) := do
  if ← accept "=" then some <$> expression else pure none

/-- A declaration, global or local. -/
def declaration : Parse Declaration := do
  expect "LET"
  let name ← identifier
  let typeName ← annotation
  let initializer ← initialValue
  expect ";"
  return ⟨← fresh, name, typeName, initializer⟩

/-- How a block is read: the statements up to the first, or one of the other, words. -/
abbrev BlockReader := String → List String → Parse (List Statement)

/-- The second body of an `IF`, if there is one. -/
def elseBlock (block : BlockReader) : Parse (List Statement) := do
  if ← accept "ELSE" then block "END" [] else pure []

/-- An `IF`, behind that word. -/
def ifStatement (block : BlockReader) : Parse Statement := do
  let condition ← expression
  expect "DO"
  let thenBody ← block "ELSE" ["END"]
  let elseBody ← elseBlock block
  expect "END"
  return .ifElse condition thenBody elseBody

/-- A `FOR`, behind that word. -/
def forStatement (block : BlockReader) : Parse Statement := do
  let name ← identifier
  expect "IN"
  let iterable ← expression
  expect "DO"
  let body ← block "END" []
  expect "END"
  return .forIn name iterable body

/-- A `WHILE`, behind that word. -/
def whileStatement (block : BlockReader) : Parse Statement := do
  let condition ← expression
  expect "DO"
  let body ← block "END" []
  expect "END"
  return .whileDo condition body

/-- A `RETURN`, behind that word. -/
def returnStatement : Parse Statement := do
  let value ← expression
  expect ";"
  return .returns value

/-- An assignment or an expression. -/
def plainStatement : Parse Statement := do
  let first ← expression
  if ← accept "=" then
    let value ← expression
    expect ";"
    return .assign first value
  else
    expect ";"
    return .expression first

/-- A statement. -/
def statement (block : BlockReader) : Parse Statement := do
  if ← sees "LET" then .declare <$> declaration
  else if ← accept "IF" then ifStatement block
  else if ← accept "FOR" then forStatement block
  else if ← accept "WHILE" then whileStatement block
  else if ← accept "RETURN" then returnStatement
  else plainStatement

/-- Whether the next token is one of the given words. -/
def seesAny (words : List String) : Parse Bool := fun c => .ok (words.any c.sees) c

/-- The statements up to one of the words `first :: others`, after the statements `done`
    in reverse order. -/
def statements (item : Parse Statement) (first : String) (others : List String) :
    Nat → List Statement → Parse (List Statement)
  | 0, _ => fail (.expected first)
  | n + 1, done => do
    if ← seesAny (first :: others) then pure done.reverse
    else
      match ← peek with
      | none => fail (.expected first)
      | some _ =>
        let s ← item
        statements item first others n (s :: done)

/-- The statements up to, and without, one of the words `first :: others`, with blocks
    nested at most `n` levels deep. -/
def blockWithin : Nat → BlockReader
  | 0, _, _ => fail .tooDeep
  | n + 1, first, others =>
    restoringDepth do
      enter
      statements (statement (blockWithin n)) first others ((← remaining) + 1) []

/-- The statements up to, and without, one of the words `first :: others`. -/
def block : BlockReader := blockWithin (maxNesting + 1)

/-! ## Programs -/

/-- A parameter of a method. -/
def parameter : Parse Parameter := do
  let name ← identifier
  return ⟨name, ← annotation⟩

/-- The parameters of a method, up to the closing parenthesis. -/
def parameters : Parse (List Parameter) := do
  if ← sees ")" then pure [] else commaList parameter

/-- A method. -/
def method : Parse Method := do
  expect "DEF"
  let name ← identifier
  expect "("
  let parameters ← parameters
  expect ")"
  let returnTypeName ← annotation
  expect "DO"
  let body ← block "END" []
  expect "END"
  return ⟨← fresh, name, parameters, returnTypeName, body⟩

/-- A whole program, with nothing behind it. -/
def source : Parse Source := do
  let fields ← manyAt "LET" declaration
  let methods ← manyAt "DEF" method
  match ← peek with
  | none => return ⟨fields, methods⟩
  | some t => fail (.trailing t.lexeme)

end Parse

/-- The program that a list of tokens spells, or the first fault in it. -/
def parse (tokens : List Token) : Except ParseError Source :=
  match Parse.source (Cursor.start tokens) with
  | .ok source _ => .ok source
  | .error e _ => .error e

end LetLang
