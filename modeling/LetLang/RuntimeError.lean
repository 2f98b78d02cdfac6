import LetLang.Scopes

/-! # Errors of a running program

Why a run can stop before its end, with the names of the types involved. -/

namespace LetLang

/-- How many calls of program methods may be active at once. -/
def maxCalls : Nat := 512

/-- Why a run stopped. -/
inductive RuntimeError where
  /-- A division of integers or decimals by zero. -/
  | divisionByZero
  /-- An operator that does not combine values of these types. -/
  | invalidOperation (operator leftType rightType : String)
  /-- A native that was given values of these types. -/
  | invalidArguments (function : String) (receivedTypes : List String)
  /-- A condition that is not a Boolean. -/
  | expectedBoolean (receivedType : String)
  /-- A loop over a value that has no elements. -/
  | notIterable (receivedType : String)
  | undefinedVariable (name : String)
  | undefinedFunction (name : String) (arity : Nat)
  | undefinedField (receiverType name : String)
  /-- The arity counts the receiver. -/
  | undefinedMethod (receiverType name : String) (arity : Nat)
  /-- An assignment to an expression that names no place. -/
  | invalidTarget (target : String)
  /-- A call that would be one too many. -/
  | callDepthExceeded (name : String)
  /-- The result of `main` is not an integer. -/
  | nonIntegerResult (resultType : String)
  /-- The output could not be written. -/
  | output (reason : String)
  /-- A name that is defined twice in one scope. -/
  | scope (error : ScopeError)
deriving DecidableEq, Repr

/-- The wording of an error. -/
def RuntimeError.message : RuntimeError → String
  | divisionByZero => "Division by zero"
  | invalidOperation operator left right =>
    "Invalid binary operation: " ++ left ++ " " ++ operator ++ " " ++ right
  | invalidArguments function received =>
    "Invalid arguments to '" ++ function ++ "': " ++ ", ".intercalate received
  | expectedBoolean received => "Expected Boolean, received " ++ received
  | notIterable received => "Value of type " ++ received ++ " is not iterable"
  | undefinedVariable name => "Undefined variable '" ++ name ++ "'"
  | undefinedFunction name arity => "Undefined function '" ++ name ++ "/" ++ toString arity ++ "'"
  | undefinedField receiver name => "Value of type " ++ receiver ++ " has no field '" ++ name ++ "'"
  | undefinedMethod receiver name arity =>
    "Value of type " ++ receiver ++ " has no method '" ++ name ++ "/" ++ toString arity ++ "'"
  | invalidTarget target => "Cannot assign to " ++ target
  | callDepthExceeded name =>
    "Calling '" ++ name ++ "' would nest more than " ++ toString maxCalls ++ " calls"
  | nonIntegerResult result => "main returned " ++ result ++ " instead of an Integer"
  | output reason => "Failed to write program output: " ++ reason
  | scope error => error.message

end LetLang
