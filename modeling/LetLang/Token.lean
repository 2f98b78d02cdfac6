/-! # Tokens

A token is a piece of the source text with its kind and the byte offset at which it
starts.  Offsets count bytes of the UTF-8 form of the source, so a token ends at its
offset plus the byte length of its lexeme.

The character classes of the lexical grammar are here too; letters and digits are those
of ASCII. -/

namespace LetLang

/-- The six kinds of token.  Keywords are identifiers. -/
inductive Token.Kind where
  | identifier
  | integer
  | decimal
  | character
  | string
  | operator
deriving DecidableEq, Repr, Inhabited

/-- A lexeme with its kind and the byte offset of its first character. -/
structure Token where
  kind : Token.Kind
  lexeme : String
  offset : Nat
deriving DecidableEq, Repr, Inhabited

namespace Token

/-- Byte offset just past the token. -/
def stop (t : Token) : Nat := t.offset + t.lexeme.utf8ByteSize

/-- Whether the token is a word or a sign of the grammar, and not a literal, that is
    spelled `lexeme`.  The string `"DO"` is not the keyword `DO`. -/
def spells (t : Token) (lexeme : String) : Bool :=
  (t.kind == .identifier || t.kind == .operator) && t.lexeme == lexeme

end Token

/-! ## Character classes -/

/-- The characters that separate tokens: space, tab, line feed, carriage return and
    backspace. -/
def isBlank (c : Char) : Bool :=
  c == ' ' || c == '\t' || c == '\n' || c == '\r' || c == '\x08'

/-- The characters that start an identifier. -/
def isIdentifierStart (c : Char) : Bool := c.isAlpha || c == '_'

/-- The characters that continue an identifier. -/
def isIdentifierRest (c : Char) : Bool := c.isAlphanum || c == '_' || c == '-'

/-- The characters that may follow a backslash inside a literal. -/
def isEscape (c : Char) : Bool :=
  c == 'b' || c == 'n' || c == 'r' || c == 't' || c == '\'' || c == '"' || c == '\\'

/-- The characters that a literal may not contain unescaped: it has to end on the line
    on which it starts. -/
def isLineBreak (c : Char) : Bool := c == '\n' || c == '\r'

/-- The characters that make one operator with a following `=`. -/
def takesEquals (c : Char) : Bool := c == '<' || c == '>' || c == '!' || c == '='

end LetLang
