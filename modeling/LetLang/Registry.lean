import LetLang.Native

/-! # The registry

Everything that a program can use besides what it defines itself: native functions, and
object types whose fields and methods are native too.  The analysis and the machine read
the same registry.

Object types keep their position for good.  A name stands for the last object type that
was registered under it, and only then for a built-in type. -/

namespace LetLang

/-- A type of objects.  Methods are natives that get the receiver as first argument; each
    is kept under the number of its parameters, the receiver included. -/
structure ObjectType where
  name : String
  fields : Table String Ty
  methods : Table FunctionKey Native
  arity_eq : ∀ key native, methods.get? key = some native → native.signature.arity = key.2

namespace ObjectType

/-- An object type without fields and methods. -/
def new (name : String) : ObjectType := ⟨name, .empty, .empty, fun _ _ h => nomatch h⟩

/-- Add a field. -/
def withField (o : ObjectType) (name : String) (ty : Ty) : ObjectType :=
  { o with fields := o.fields.insert name ty }

/-- Add a method.  `parameters` leaves out the receiver, which comes first in the
    signature with type `Any`. -/
def withMethod (o : ObjectType) (name : String) (parameters : List Ty) (returns : Ty)
    (call : List Value → NativeM Value) : ObjectType :=
  let native : Native := ⟨name, ⟨.any :: parameters, returns⟩, call⟩
  { o with
    methods := o.methods.insert (name, native.signature.arity) native
    arity_eq := fun key other h => by
      rw [Table.get?_insert] at h
      split at h
      · cases h; subst key; rfl
      · exact o.arity_eq key other h }

end ObjectType

/-- Native functions and object types, in the order in which they were registered. -/
structure Registry where
  functions : List Native
  objects : List ObjectType

namespace Registry

/-- A registry with nothing in it. -/
def empty : Registry := ⟨[], []⟩

/-- Add a native function. -/
def register (r : Registry) (native : Native) : Registry :=
  { r with functions := r.functions ++ [native] }

/-- Add an object type, and give the type of its objects. -/
def registerObject (r : Registry) (object : ObjectType) : Registry × ObjectRef :=
  ({ r with objects := r.objects ++ [object] }, ⟨object.name, some r.objects.length⟩)

/-- `print` and nothing else. -/
def standard : Registry := empty.register Native.print

/-- The natives of the command line: `print` and `range`. -/
def withRange : Registry := standard.register Native.range

/-- The position of the last object type of that name. -/
def position? (r : Registry) (name : String) : Option Nat :=
  r.objects.zipIdx.foldl (fun found o => if o.1.name = name then some o.2 else found) none

/-- The type that a name stands for. -/
def resolve? (r : Registry) (name : String) : Option Ty :=
  match r.position? name with
  | some i => some (.object ⟨name, some i⟩)
  | none => Ty.builtin.find? (·.name == name)

end Registry

/-! ## Members -/

/-- The declaration of an object type. -/
def ObjectRef.declaration? (objects : List ObjectType) (ref : ObjectRef) : Option ObjectType :=
  ref.position.bind (objects[·]?)

/-- The type of a field.  Only object types have fields. -/
def Ty.field? (objects : List ObjectType) (ty : Ty) (name : String) : Option Ty :=
  match ty with
  | .object ref => (ref.declaration? objects).bind (·.fields.get? name)
  | _ => none

/-- A method by name and arity, which counts the receiver.  Only object types have
    methods. -/
def Ty.method? (objects : List ObjectType) (ty : Ty) (name : String) (arity : Nat) :
    Option Native :=
  match ty with
  | .object ref => (ref.declaration? objects).bind (·.methods.get? (name, arity))
  | _ => none

/-- The method of a value by name and arity, which counts the receiver.  An object has the methods
    of the type that it was made with. -/
def Value.method (objects : List ObjectType) (receiver : Value) (name : String) (arity : Nat) :
    Except RuntimeError Native :=
  let found :=
    match receiver with
    | .object _ ref => Ty.method? objects (.object ref) name arity
    | _ => none
  match found with
  | some native => .ok native
  | none => .error (.undefinedMethod receiver.typeName name arity)

end LetLang
