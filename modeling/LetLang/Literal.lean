import LetLang.Decimal
import LetLang.Token

/-! # Literals

The values that a program can spell, and how a token spells them.  The lexer has checked
the shape of a lexeme, so reading one that it made always succeeds. -/

namespace LetLang

/-- A value written in the source. -/
inductive Literal where
  | nil
  | boolean (b : Bool)
  | character (c : Char)
  | string (s : String)
  | integer (n : Int)
  | decimal (d : Decimal)
deriving DecidableEq, Repr, Inhabited

namespace Literal

/-- The character that an escape stands for. -/
def unescapeChar (c : Char) : Char :=
  if c = 'b' then '\x08'
  else if c = 'n' then '\n'
  else if c = 'r' then '\r'
  else if c = 't' then '\t'
  else c

/-- The text that the body of a literal stands for. -/
def unescape : List Char → List Char
  | [] => []
  | c :: cs =>
    if c = '\\' then
      match cs with
      | [] => []
      | e :: cs => unescapeChar e :: unescape cs
    else c :: unescape cs

/-- The body of a lexeme between quotes: all but its first and last character. -/
def unquote? (cs : List Char) : Option (List Char) :=
  if cs.length < 2 then none else some cs.tail.dropLast

/-- The literals that are words. -/
def ofWord? (word : String) : Option Literal :=
  if word = "TRUE" then some (.boolean true)
  else if word = "FALSE" then some (.boolean false)
  else if word = "NIL" then some .nil
  else none

/-- The value that a token spells, `none` for a token that is no literal. -/
def ofToken? (t : Token) : Option Literal :=
  let cs := t.lexeme.toList
  match t.kind with
  | .identifier => ofWord? t.lexeme
  | .integer => (Numeral.integer? cs).map .integer
  | .decimal => (Decimal.ofNumeral? cs).map .decimal
  | .character => do
    let body ← unquote? cs
    (unescape body).head?.map .character
  | .string => do
    let body ← unquote? cs
    return .string (String.ofList (unescape body))
  | .operator => none

end Literal

end LetLang
