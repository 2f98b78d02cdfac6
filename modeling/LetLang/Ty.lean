/-! # Types

Types are compared by name.  Besides equality there are two rules of assignability: `Any`
takes everything, and `Comparable` takes integers, decimals, characters and strings.

An object type is a name and a position in a registry, and its fields and methods are found
there.  So only registered types have tables of members.  Of the objects that a host makes by
other means nothing is known but their name and, on the heap, their fields; they have no
methods. -/

namespace LetLang

/-- The type of an object: its name, and its position among the object types of a
    registry.  An object made outside of any registry has no position; it has fields, and
    no methods. -/
structure ObjectRef where
  name : String
  position : Option Nat
deriving DecidableEq, Repr, Inhabited

/-- A static type. -/
inductive Ty where
  | nil
  | any
  | comparable
  | boolean
  | integer
  | decimal
  | character
  | string
  /-- What `FOR` runs over: the integers of a range. -/
  | integerIterable
  /-- A type of the registry, with fields and methods. -/
  | object (ref : ObjectRef)
deriving DecidableEq, Repr, Inhabited

namespace Ty

/-- The name of a type. -/
def name : Ty → String
  | nil => "Nil"
  | any => "Any"
  | comparable => "Comparable"
  | boolean => "Boolean"
  | integer => "Integer"
  | decimal => "Decimal"
  | character => "Character"
  | string => "String"
  | integerIterable => "IntegerIterable"
  | object ref => ref.name

/-- The types that every program knows. -/
def builtin : List Ty :=
  [nil, any, comparable, boolean, integer, decimal, character, string, integerIterable]

/-- Equality of types: they have the same name. -/
def same (a b : Ty) : Bool := a.name == b.name

/-- The types that `Comparable` takes. -/
def isComparable : Ty → Bool
  | integer | decimal | character | string => true
  | _ => false

/-- Whether a value of type `actual` may stand where `target` is due. -/
def accepts (target actual : Ty) : Bool :=
  target.same actual ||
    match target with
    | any => true
    | comparable => actual.isComparable
    | _ => false

end Ty

/-- The parameters and the result of a function. -/
structure Signature where
  parameters : List Ty
  returns : Ty
deriving DecidableEq, Repr, Inhabited

/-- Number of parameters. -/
def Signature.arity (s : Signature) : Nat := s.parameters.length

end LetLang
