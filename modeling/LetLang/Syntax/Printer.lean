import LetLang.Syntax
import LetLang.Text.Quoted

/-! # Expressions as text

The fully parenthesised form in which errors and listings show an expression: the
operator or the word `group`, `get` or `call` first, then its parts. -/

namespace LetLang

/-- A literal as it is shown in a listing; characters and strings are quoted. -/
def Literal.text : Literal → String
  | nil => "NIL"
  | boolean true => "TRUE"
  | boolean false => "FALSE"
  | character c => Quoted.character c
  | string s => Quoted.string s
  | integer n => Numeral.text n
  | decimal d => d.text

mutual

/-- The fully parenthesised form of an expression. -/
def Expr.text : Expr → String
  | .literal _ value => value.text
  | .group _ inner => "(group " ++ inner.text ++ ")"
  | .binary _ operator left right =>
    "(" ++ operator.symbol ++ " " ++ left.text ++ " " ++ right.text ++ ")"
  | .var _ name => name
  | .field _ receiver name => "(get " ++ receiver.text ++ "." ++ name ++ ")"
  | .call _ name arguments => "(call " ++ name ++ Expr.listText arguments ++ ")"
  | .invoke _ receiver name arguments =>
    "(call " ++ receiver.text ++ "." ++ name ++ Expr.listText arguments ++ ")"

/-- The forms of several expressions, each after a space. -/
def Expr.listText : List Expr → String
  | [] => ""
  | e :: rest => " " ++ e.text ++ Expr.listText rest

end

end LetLang
