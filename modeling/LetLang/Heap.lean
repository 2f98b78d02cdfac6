import LetLang.Value

/-! # Objects

Objects live on a heap and are reached by their address.  An object has exactly the
fields that it was made with: writing changes their values, and never adds a field or
takes one away. -/

namespace LetLang

/-- The state of one object. -/
structure Instance where
  ref : ObjectRef
  fields : Table String Value

/-- All objects that have been made, by address. -/
structure Heap where
  cells : Array Instance

namespace Heap

/-- The heap without objects. -/
def empty : Heap := ⟨#[]⟩

instance : Inhabited Heap := ⟨empty⟩

/-- Make an object with the given fields. -/
def allocate (h : Heap) (ref : ObjectRef) (fields : Table String Value) : Value × Heap :=
  (.object h.cells.size ref, ⟨h.cells.push ⟨ref, fields⟩⟩)

/-- The value of a field of the object with that address. -/
def field? (h : Heap) (address : Nat) (name : String) : Option Value :=
  h.cells[address]?.bind (·.fields.get? name)

/-- Read a field of a value.  Only objects have fields. -/
def read (h : Heap) (receiver : Value) (name : String) : Except RuntimeError Value :=
  let found :=
    match receiver with
    | .object address _ => h.field? address name
    | _ => none
  match found with
  | some v => .ok v
  | none => .error (.undefinedField receiver.typeName name)

/-- Write a field of a value.  Only fields that the object has can be written. -/
def write (h : Heap) (receiver : Value) (name : String) (value : Value) :
    Except RuntimeError Heap :=
  match receiver with
  | .object address _ =>
    if (h.field? address name).isSome then
      .ok ⟨h.cells.modify address fun cell =>
        { cell with fields := cell.fields.insert name value }⟩
    else .error (.undefinedField receiver.typeName name)
  | _ => .error (.undefinedField receiver.typeName name)

end Heap

end LetLang
