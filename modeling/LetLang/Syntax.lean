import LetLang.Literal

/-! # Programs

The tree of a program: global variables first, then methods.  Expressions, declarations
and methods carry a node number; what the analysis learns about a node is kept in a side
table under its number, and the tree itself is never changed.

The tree is no wider than what the parser builds.  There are twelve operators, so no tree has
an unknown one and no stage has an error for it.  Node numbers are natural numbers, so they do
not run out; the parser counts them up from 0, one for each node of the text. -/

namespace LetLang

/-- The number of a node, unique within one program and without an upper end. -/
abbrev NodeId := Nat

/-! ## Operators -/

/-- The binary operators. -/
inductive Operator where
  | and
  | or
  | less
  | lessEqual
  | greater
  | greaterEqual
  | equal
  | notEqual
  | plus
  | minus
  | times
  | divide
deriving DecidableEq, Repr, Inhabited

/-- The four levels of binding, from the loosest to the tightest.  Operators of one level
    associate to the left. -/
inductive Level where
  | logical
  | comparison
  | additive
  | multiplicative
deriving DecidableEq, Repr, Inhabited

namespace Operator

/-- How an operator is written. -/
def symbol : Operator → String
  | and => "AND"
  | or => "OR"
  | less => "<"
  | lessEqual => "<="
  | greater => ">"
  | greaterEqual => ">="
  | equal => "=="
  | notEqual => "!="
  | plus => "+"
  | minus => "-"
  | times => "*"
  | divide => "/"

/-- All operators. -/
def all : List Operator :=
  [and, or, less, lessEqual, greater, greaterEqual, equal, notEqual, plus, minus, times, divide]

/-- The operator that is written so, if there is one. -/
def ofSymbol? (s : String) : Option Operator := all.find? (·.symbol == s)

/-- How tightly an operator binds. -/
def level : Operator → Level
  | and | or => .logical
  | less | lessEqual | greater | greaterEqual | equal | notEqual => .comparison
  | plus | minus => .additive
  | times | divide => .multiplicative

end Operator

/-- The operators of a level. -/
def Level.operators : Level → List Operator
  | logical => [.and, .or]
  | comparison => [.less, .lessEqual, .greater, .greaterEqual, .equal, .notEqual]
  | additive => [.plus, .minus]
  | multiplicative => [.times, .divide]

/-- An operator is listed at its level, and at no other. -/
theorem Level.mem_operators (l : Level) (o : Operator) : o ∈ l.operators ↔ o.level = l := by
  cases l <;> cases o <;> decide

/-! ## Expressions -/

/-- An expression.  Every constructor starts with the number of the node. -/
inductive Expr where
  /-- A value written in the source. -/
  | literal (id : NodeId) (value : Literal)
  /-- An expression in parentheses. -/
  | group (id : NodeId) (inner : Expr)
  /-- Two operands and what combines them. -/
  | binary (id : NodeId) (operator : Operator) (left right : Expr)
  /-- A variable. -/
  | var (id : NodeId) (name : String)
  /-- A field of an object. -/
  | field (id : NodeId) (receiver : Expr) (name : String)
  /-- A call of a function in scope. -/
  | call (id : NodeId) (name : String) (arguments : List Expr)
  /-- A call of a method of an object. -/
  | invoke (id : NodeId) (receiver : Expr) (name : String) (arguments : List Expr)
deriving Repr, Inhabited

namespace Expr

/-- The number of the node. -/
def id : Expr → NodeId
  | literal id _ | group id _ | binary id _ _ _ | var id _ | field id _ _ | call id _ _
  | invoke id _ _ _ => id

/-- Whether the expression is two operands and an operator, without parentheses. -/
def isBinary : Expr → Bool
  | binary .. => true
  | _ => false

/-- Whether the expression names a place that can be assigned to. -/
def isAccess : Expr → Bool
  | var .. | field .. => true
  | _ => false

/-- Whether the expression is a call, of a function or of a method. -/
def isCall : Expr → Bool
  | call .. | invoke .. => true
  | _ => false

end Expr

/-! ## Statements and programs -/

/-- A variable declaration, global or local. -/
structure Declaration where
  id : NodeId
  name : String
  typeName : Option String
  initializer : Option Expr
deriving Repr, Inhabited

/-- A statement. -/
inductive Statement where
  /-- An expression evaluated for its effect. -/
  | expression (value : Expr)
  /-- A local variable. -/
  | declare (declaration : Declaration)
  /-- An assignment; whether the target can be assigned to is not a matter of grammar. -/
  | assign (target value : Expr)
  /-- `IF`; without `ELSE` the second body is empty. -/
  | ifElse (condition : Expr) (thenBody elseBody : List Statement)
  /-- `FOR … IN`. -/
  | forIn (name : String) (iterable : Expr) (body : List Statement)
  /-- `WHILE`. -/
  | whileDo (condition : Expr) (body : List Statement)
  /-- `RETURN`. -/
  | returns (value : Expr)
deriving Repr, Inhabited

/-- A parameter of a method, with its type if one is given. -/
structure Parameter where
  name : String
  typeName : Option String
deriving DecidableEq, Repr, Inhabited

/-- A method of a program. -/
structure Method where
  id : NodeId
  name : String
  parameters : List Parameter
  returnTypeName : Option String
  body : List Statement
deriving Repr, Inhabited

/-- A whole program: its global variables, then its methods. -/
structure Source where
  fields : List Declaration
  methods : List Method
deriving Repr, Inhabited

end LetLang
