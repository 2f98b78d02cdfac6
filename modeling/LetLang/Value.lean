import LetLang.RuntimeError
import LetLang.Syntax
import LetLang.Ty

/-! # Values

What a program computes with, and what the operators do.  Operators never convert
between kinds of value, with one exception: `+` with a string on either side joins the
texts of both.

Objects keep their type.  The type that an object was made with is carried along in every
value that refers to it, and `typeName`, `text` and `Value.method` read it there without a
look at the heap.  It is the type on the heap as long as no native puts an object of another
type in its place, which nothing else can do; `Heap.Keeps` is the name of this condition. -/

namespace LetLang

/-- A value at run time. -/
inductive Value where
  | nil
  | boolean (b : Bool)
  | character (c : Char)
  | string (s : String)
  | integer (n : Int)
  | decimal (d : Decimal)
  /-- The integers from `start` up to, and without, `stop`. -/
  | range (start stop : Int)
  /-- An object, by its address and the type that it was made with; copies of the value share
      the object. -/
  | object (address : Nat) (ref : ObjectRef)
deriving DecidableEq, Repr, Inhabited

/-- The value that a literal stands for. -/
def Literal.toValue : Literal → Value
  | nil => .nil
  | boolean b => .boolean b
  | character c => .character c
  | string s => .string s
  | integer n => .integer n
  | decimal d => .decimal d

namespace Value

/-- The name of the type of a value.  For an object it is the type that it was made with. -/
def typeName : Value → String
  | nil => "Nil"
  | boolean _ => "Boolean"
  | character _ => "Character"
  | string _ => "String"
  | integer _ => "Integer"
  | decimal _ => "Decimal"
  | range .. => "IntegerIterable"
  | object _ ref => ref.name

/-- The text of a value, as `print` writes it. -/
def text : Value → String
  | nil => "NIL"
  | boolean true => "TRUE"
  | boolean false => "FALSE"
  | character c => c.toString
  | string s => s
  | integer n => Numeral.text n
  | decimal d => d.text
  | range start stop => Numeral.text start ++ ".." ++ Numeral.text stop
  | object _ ref => "<" ++ ref.name ++ ">"

/-- The truth value of a condition; only Booleans have one. -/
def toBool : Value → Except RuntimeError Bool
  | boolean b => .ok b
  | v => .error (.expectedBoolean v.typeName)

/-- The first integer that a loop over the value sees, and how many it sees. -/
def elements? : Value → Option (Int × Nat)
  | range start stop => some (start, (stop - start).toNat)
  | _ => none

/-! ## Operators -/

/-- The order of two values of one kind, if the kind has an order. -/
def compare? : Value → Value → Option Ordering
  | integer a, integer b => some (compare a b)
  | decimal a, decimal b => some (a.compare b)
  | character a, character b => some (compare a b)
  | string a, string b => some (compare a b)
  | boolean a, boolean b => some (compare a b)
  | _, _ => none

/-- Equality of values.  Values of different kinds are different, decimals are equal
    as numbers, and an object equals only itself. -/
def equal : Value → Value → Bool
  | nil, nil => true
  | boolean a, boolean b => a == b
  | character a, character b => a == b
  | string a, string b => a == b
  | integer a, integer b => a == b
  | decimal a, decimal b => a.equal b
  | range a b, range c d => a == c && b == d
  | object a _, object b _ => a == b
  | _, _ => false

/-- The sum of two numbers, or two texts joined. -/
def add? : Value → Value → Option Value
  | string a, v => some (.string (a ++ v.text))
  | v, string b => some (.string (v.text ++ b))
  | integer a, integer b => some (.integer (a + b))
  | decimal a, decimal b => some (.decimal (a.add b))
  | _, _ => none

/-- The difference of two numbers. -/
def sub? : Value → Value → Option Value
  | integer a, integer b => some (.integer (a - b))
  | decimal a, decimal b => some (.decimal (a.sub b))
  | _, _ => none

/-- The product of two numbers. -/
def mul? : Value → Value → Option Value
  | integer a, integer b => some (.integer (a * b))
  | decimal a, decimal b => some (.decimal (a.mul b))
  | _, _ => none

/-- The quotient of two numbers: integers truncate toward zero, decimals keep one
    place. -/
def div? : Value → Value → Option (Except RuntimeError Value)
  | integer a, integer b =>
    some (if b = 0 then .error .divisionByZero else .ok (.integer (a.tdiv b)))
  | decimal a, decimal b =>
    some (if b.isZero then .error .divisionByZero else .ok (.decimal (a.divide b)))
  | _, _ => none

/-- The error of an operator that does not combine these values. -/
def invalid (symbol : String) (a b : Value) : RuntimeError :=
  .invalidOperation symbol a.typeName b.typeName

/-- The value of a comparison, if the operands can be compared. -/
def ordered (symbol : String) (a b : Value) (holds : Ordering → Bool) :
    Except RuntimeError Value :=
  match compare? a b with
  | some o => .ok (.boolean (holds o))
  | none => .error (invalid symbol a b)

/-- The value of an arithmetic operation, if it is defined. -/
def defined (symbol : String) (a b : Value) : Option Value → Except RuntimeError Value
  | some v => .ok v
  | none => .error (invalid symbol a b)

/-- What an operator makes of two values.  `AND` and `OR` are not operations on values:
    they decide whether their right operand is evaluated at all. -/
def binary (operator : Operator) (a b : Value) : Except RuntimeError Value :=
  let symbol := operator.symbol
  match operator with
  | .plus => defined symbol a b (add? a b)
  | .minus => defined symbol a b (sub? a b)
  | .times => defined symbol a b (mul? a b)
  | .divide => (div? a b).getD (.error (invalid symbol a b))
  | .less => ordered symbol a b Ordering.isLT
  | .lessEqual => ordered symbol a b Ordering.isLE
  | .greater => ordered symbol a b Ordering.isGT
  | .greaterEqual => ordered symbol a b Ordering.isGE
  | .equal => .ok (.boolean (equal a b))
  | .notEqual => .ok (.boolean (!equal a b))
  | .and | .or => .error (invalid symbol a b)

/-- What the operator with the given symbol makes of two values. -/
def binaryNamed (symbol : String) (a b : Value) : Except RuntimeError Value :=
  match Operator.ofSymbol? symbol with
  | some operator => binary operator a b
  | none => .error (invalid symbol a b)

end Value

end LetLang
