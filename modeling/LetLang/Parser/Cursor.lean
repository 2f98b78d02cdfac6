import LetLang.Syntax

/-! # A place in a list of tokens

What parsing keeps track of, and the steps from which the grammar is put together.  A
step that fails leaves the cursor where it failed: the tokens before that place are
consumed and the nesting reached there is kept.

Nothing looks further ahead than the first token of `rest`.  The length of `rest` is kept
beside it, so that asking for it takes no time; `count_eq` says that it is right. -/

namespace LetLang

/-- How deep expressions and blocks may nest. -/
def maxNesting : Nat := 200

/-- What can be wrong with a list of tokens. -/
inductive ParseFault where
  /-- No expression starts here. -/
  | expectedExpression
  /-- A name is due here. -/
  | expectedIdentifier
  /-- The given word or sign is due here. -/
  | expected (lexeme : String)
  /-- The expression in parentheses has ended, and no parenthesis closes it. -/
  | unterminatedParenthesis
  /-- A literal token that spells no value. -/
  | invalidLiteral
  /-- Something follows the last method. -/
  | trailing (lexeme : String)
  /-- Expressions and blocks nest deeper than `maxNesting`. -/
  | tooDeep
deriving DecidableEq, Repr

/-- A fault and the byte offset of the token at which it shows. -/
structure ParseError where
  offset : Nat
  fault : ParseFault
deriving DecidableEq, Repr

/-- The wording of a fault. -/
def ParseFault.message : ParseFault → String
  | expectedExpression => "Expected expression"
  | expectedIdentifier => "Expected identifier"
  | expected lexeme => "Expected '" ++ lexeme ++ "'"
  | unterminatedParenthesis => "Unterminated parenthesis"
  | invalidLiteral => "Invalid literal"
  | trailing lexeme => "Unexpected '" ++ lexeme ++ "' after the last method"
  | tooDeep => "Nested deeper than " ++ toString maxNesting ++ " levels"

/-- The wording of an error, with its place. -/
def ParseError.message (e : ParseError) : String :=
  "offset " ++ toString e.offset ++ ": " ++ e.fault.message

/-- Where a parser stands. -/
structure Cursor where
  /-- The tokens that are not consumed yet. -/
  rest : List Token
  /-- How many tokens are not consumed yet. -/
  count : Nat
  /-- The byte offset just past the last consumed token. -/
  consumed : Nat
  /-- The number of the next node. -/
  nextId : NodeId
  /-- How many expressions, blocks, operators and dots enclose this place. -/
  depth : Nat
  count_eq : count = rest.length

namespace Cursor

/-- The place before the first token. -/
def start (tokens : List Token) : Cursor := ⟨tokens, tokens.length, 0, 0, 0, rfl⟩

/-- The byte offset of the next token, or just past the last one at the end. -/
def offset (c : Cursor) : Nat :=
  match c.rest with
  | t :: _ => t.offset
  | [] => c.consumed

/-- Whether the next token is the given word or sign. -/
def sees (c : Cursor) (lexeme : String) : Bool :=
  match c.rest with
  | t :: _ => t.spells lexeme
  | [] => false

/-- The place behind the next token. -/
def advance (c : Cursor) : Cursor :=
  match h : c.rest with
  | t :: rest =>
    { c with
      rest := rest, count := c.count - 1, consumed := t.stop
      count_eq := by rw [c.count_eq, h]; rfl }
  | [] => c

end Cursor

/-- A step of the parser. -/
abbrev Parse := EStateM ParseError Cursor

namespace Parse

/-- Fail at the next token. -/
def fail {α : Type} (fault : ParseFault) : Parse α := fun c => .error ⟨c.offset, fault⟩ c

/-- The next token, which stays where it is. -/
def peek : Parse (Option Token) := fun c => .ok c.rest.head? c

/-- Whether the next token is the given word or sign. -/
def sees (lexeme : String) : Parse Bool := fun c => .ok (c.sees lexeme) c

/-- Consume the next token. -/
def advance : Parse Unit := fun c => .ok () c.advance

/-- Consume the next token if it is the given word or sign, and say whether it was. -/
def accept (lexeme : String) : Parse Bool := fun c =>
  if c.sees lexeme then .ok true c.advance else .ok false c

/-- Consume the given word or sign. -/
def expect (lexeme : String) : Parse Unit := do
  if ← accept lexeme then pure () else fail (.expected lexeme)

/-- Consume a name.  Keywords are names too where a name is due. -/
def identifier : Parse String := do
  match ← peek with
  | some t => if t.kind = .identifier then do advance; pure t.lexeme else fail .expectedIdentifier
  | none => fail .expectedIdentifier

/-- Take the next node number. -/
def fresh : Parse NodeId := fun c => .ok c.nextId { c with nextId := c.nextId + 1 }

/-- Go one level deeper. -/
def enter : Parse Unit := fun c =>
  if maxNesting ≤ c.depth then .error ⟨c.offset, .tooDeep⟩ c
  else .ok () { c with depth := c.depth + 1 }

/-- Run `p` and, if it succeeds, go back to the nesting from before. -/
def restoringDepth {α : Type} (p : Parse α) : Parse α := fun c =>
  match p c with
  | .ok a c' => .ok a { c' with depth := c.depth }
  | .error e c' => .error e c'

/-- How many tokens are left.  A loop whose rounds each consume a token needs no more
    rounds than that. -/
def remaining : Parse Nat := fun c => .ok c.count c

/-! ## Repetition -/

/-- The rounds of `commaList`, after the items `done` in reverse order. -/
def commaRounds {α : Type} (item : Parse α) : Nat → List α → Parse (List α)
  | 0, done => pure done.reverse
  | n + 1, done => do
    if ← accept "," then
      let a ← item
      commaRounds item n (a :: done)
    else pure done.reverse

/-- One or more items with commas between them. -/
def commaList {α : Type} (item : Parse α) : Parse (List α) := do
  let first ← item
  commaRounds item (← remaining) [first]

/-- The rounds of `manyAt`, after the items `done` in reverse order. -/
def manyRounds {α : Type} (lexeme : String) (item : Parse α) : Nat → List α → Parse (List α)
  | 0, done => pure done.reverse
  | n + 1, done => do
    if ← sees lexeme then
      let a ← item
      manyRounds lexeme item n (a :: done)
    else pure done.reverse

/-- Items for as long as the next token is the given word or sign. -/
def manyAt {α : Type} (lexeme : String) (item : Parse α) : Parse (List α) := do
  manyRounds lexeme item (← remaining) []

end Parse

end LetLang
