import LetLang.Heap
import LetLang.Output

/-! # Native functions

A native is a function that programs can call and that is not written in the language.
It sees its arguments, the objects and the output, and nothing of the program's
scopes.

A native has no state of its own: it is a function of its arguments and of the world.  One
that counts its calls, say, keeps the count in an object on the heap. -/

namespace LetLang

/-- What a native can change. -/
structure World where
  heap : Heap
  output : Output
deriving Inhabited

/-- A computation of a native.  On failure it has still done what it did before. -/
abbrev NativeM := EStateM RuntimeError World

namespace NativeM

/-- Write text to the output. -/
def write (s : String) : NativeM Unit := fun w =>
  let bytes := s.toUTF8
  let w' := { w with output := w.output.write bytes }
  if w.output.fits bytes then .ok () w' else .error (.output "output full") w'

/-- A result that may be an error. -/
def ofExcept {α : Type} : Except RuntimeError α → NativeM α
  | .ok a => pure a
  | .error e => throw e

/-- Read a field of a value. -/
def readField (receiver : Value) (name : String) : NativeM Value := fun w =>
  match w.heap.read receiver name with
  | .ok v => .ok v w
  | .error e => .error e w

/-- Write a field of a value. -/
def writeField (receiver : Value) (name : String) (value : Value) : NativeM Unit := fun w =>
  match w.heap.write receiver name value with
  | .ok heap => .ok () { w with heap := heap }
  | .error e => .error e w

/-- Make an object whose fields all hold `NIL`. -/
def allocate (ref : ObjectRef) (fieldNames : List String) : NativeM Value := fun w =>
  let (v, heap) := w.heap.allocate ref (.ofList (fieldNames.map (·, .nil)))
  .ok v { w with heap := heap }

end NativeM

/-- A native function with its signature. -/
structure Native where
  name : String
  signature : Signature
  call : List Value → NativeM Value

namespace Native

/-- The error of a native that cannot work with its arguments. -/
def invalidArguments (name : String) (arguments : List Value) : RuntimeError :=
  .invalidArguments name (arguments.map Value.typeName)

/-- Write the text of every value on a line of its own. -/
def printAll : List Value → NativeM Unit
  | [] => pure ()
  | v :: rest => do
    NativeM.write (v.text ++ "\n")
    printAll rest

/-- `print(Any): Nil` writes the text of its argument and a line break. -/
def print : Native where
  name := "print"
  signature := ⟨[.any], .nil⟩
  call := fun arguments => do
    printAll arguments
    return .nil

/-- `range(Integer, Integer): IntegerIterable` counts from its first argument up to, and
    without, its second one. -/
def range : Native where
  name := "range"
  signature := ⟨[.integer, .integer], .integerIterable⟩
  call
    | [.integer start, .integer stop] => pure (.range start stop)
    | arguments => throw (invalidArguments "range" arguments)

end Native

end LetLang
