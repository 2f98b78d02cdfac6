import LetLang.Registry

/-! # What an analysis knows

The side table of a program, keyed by node number, and the reasons for which a program
is rejected. -/

namespace LetLang

/-- A variable or a field as the analysis resolved it. -/
structure VariableBinding where
  name : String
  ty : Ty
deriving DecidableEq, Repr

/-- A function as the analysis resolved it.  For a method of an object type the receiver
    is the first parameter. -/
structure FunctionBinding where
  name : String
  signature : Signature
deriving DecidableEq, Repr

/-- What is known about the nodes of a program: the types of expressions, the variables
    of accesses and declarations, the functions of calls and methods. -/
structure Analysis where
  types : Table NodeId Ty
  vars : Table NodeId VariableBinding
  functions : Table NodeId FunctionBinding

namespace Analysis

/-- Nothing is known. -/
def empty : Analysis := ⟨.empty, .empty, .empty⟩

/-- The type of an expression. -/
def type? (a : Analysis) (id : NodeId) : Option Ty := a.types.get? id

/-- The variable that an access or a declaration stands for. -/
def binding? (a : Analysis) (id : NodeId) : Option VariableBinding := a.vars.get? id

/-- The function that a call or a method stands for. -/
def function? (a : Analysis) (id : NodeId) : Option FunctionBinding := a.functions.get? id

/-- Number of expressions that have a type. -/
def typedExpressions (a : Analysis) : Nat := a.types.size

end Analysis

/-- Why a program is rejected. -/
inductive SemanticError where
  | undefinedVariable (name : String)
  | undefinedFunction (name : String) (arity : Nat)
  | unknownType (name : String)
  | unknownField (receiver : Ty) (name : String)
  /-- The arity counts the receiver. -/
  | unknownMethod (receiver : Ty) (name : String) (arity : Nat)
  | notAssignable (target actual : Ty)
  | invalidOperands (operator : Operator) (left right : Ty)
  | integerOutOfRange (n : Int)
  | decimalOutOfRange (d : Decimal)
  /-- Parentheses around an expression that is not a binary one. -/
  | groupNotBinary
  /-- An assignment to an expression that names no place. -/
  | invalidTarget
  /-- An expression statement that is not a call. -/
  | statementNotCall
  /-- An empty body of the statement with the given keyword. -/
  | emptyBody (keyword : String)
  /-- A declaration with neither a type nor an initial value. -/
  | untypedDeclaration (name : String)
  | missingMain
  /-- A name that is defined twice in one scope. -/
  | scope (error : ScopeError)
deriving DecidableEq, Repr

/-- The wording of an error. -/
def SemanticError.message : SemanticError → String
  | undefinedVariable name => "Undefined variable '" ++ name ++ "'"
  | undefinedFunction name arity => "Undefined function '" ++ name ++ "/" ++ toString arity ++ "'"
  | unknownType name => "Unknown type '" ++ name ++ "'"
  | unknownField receiver name => "Type '" ++ receiver.name ++ "' has no field '" ++ name ++ "'"
  | unknownMethod receiver name arity =>
    "Type '" ++ receiver.name ++ "' has no method '" ++ name ++ "/" ++ toString arity ++ "'"
  | notAssignable target actual =>
    "Expected '" ++ target.name ++ "', received '" ++ actual.name ++ "'"
  | invalidOperands operator left right =>
    "Operator '" ++ operator.symbol ++ "' cannot combine '" ++ left.name ++ "' and '" ++
      right.name ++ "'"
  | integerOutOfRange n => "Integer literal " ++ Numeral.text n ++ " does not fit in 32 bits"
  | decimalOutOfRange d => "Decimal literal " ++ d.text ++ " does not fit in a 64-bit float"
  | groupNotBinary => "Grouped expression must be a binary expression"
  | invalidTarget => "Assignment target must be an access expression"
  | statementNotCall => "Expression statement must be a function call"
  | emptyBody keyword => "Body of " ++ keyword ++ " statement is empty"
  | untypedDeclaration name => "Declaration of '" ++ name ++ "' needs a type or an initializer"
  | missingMain => "No 'main/0' method defined"
  | scope error => error.message

end LetLang
