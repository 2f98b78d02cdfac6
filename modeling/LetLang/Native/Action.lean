import LetLang.Native

/-! # Natives described by data

A host that does not want to write its natives as functions can describe what they do
with an `Action`. -/

namespace LetLang

/-- What a native does with its arguments.  Methods get the receiver as argument 0. -/
inductive Action where
  /-- Give always the same value. -/
  | constant (value : Value)
  /-- Give one of the arguments. -/
  | argument (index : Nat)
  /-- Write every argument between brackets, and give `NIL`. -/
  | bracket
  /-- Combine two arguments with an operator. -/
  | operate (symbol : String)
  /-- Make an object, and set the given fields to the arguments with the given indices. -/
  | create (ref : ObjectRef) (fieldNames : List String) (settings : List (String × Nat))
  /-- Read a field of the first argument. -/
  | readField (name : String)
  /-- Write the second argument into a field of the first, which has to be an object. -/
  | writeField (name : String)
  /-- Combine a field of the first argument, which has to be an object, with the second
      argument, and give the new value of the field. -/
  | updateField (name symbol : String)
  /-- Accept no arguments whatever. -/
  | reject

namespace Action

/-- Write every value between brackets. -/
def bracketAll : List Value → NativeM Unit
  | [] => pure ()
  | v :: rest => do
    NativeM.write ("[" ++ v.text ++ "]")
    bracketAll rest

/-- Set fields of an object to arguments, in the given order. -/
def applySettings (invalid : RuntimeError) (object : Value) (arguments : List Value) :
    List (String × Nat) → NativeM Unit
  | [] => pure ()
  | (name, index) :: rest =>
    match arguments[index]? with
    | none => throw invalid
    | some v => do
      NativeM.writeField object name v
      applySettings invalid object arguments rest

/-- Carry out an action for the native called `name`. -/
def run (action : Action) (name : String) (arguments : List Value) : NativeM Value :=
  let invalid := Native.invalidArguments name arguments
  match action with
  | constant value => pure value
  | argument index =>
    match arguments[index]? with
    | some v => pure v
    | none => throw invalid
  | bracket => do
    bracketAll arguments
    return .nil
  | operate symbol =>
    match arguments with
    | [a, b] => NativeM.ofExcept (Value.binaryNamed symbol a b)
    | _ => throw invalid
  | create ref fieldNames settings => do
    let object ← NativeM.allocate ref fieldNames
    applySettings invalid object arguments settings
    return object
  | readField field =>
    match arguments with
    | receiver :: _ => NativeM.readField receiver field
    | [] => throw invalid
  | writeField field =>
    match arguments with
    | [.object address ref, v] => do
      NativeM.writeField (.object address ref) field v
      return .nil
    | _ => throw invalid
  | updateField field symbol =>
    match arguments with
    | [.object address ref, v] => do
      let old ← NativeM.readField (.object address ref) field
      let new ← NativeM.ofExcept (Value.binaryNamed symbol old v)
      NativeM.writeField (.object address ref) field new
      return new
    | _ => throw invalid
  | reject => throw invalid

/-- The native of that name and signature that carries out the action. -/
def native (action : Action) (name : String) (signature : Signature) : Native :=
  ⟨name, signature, action.run name⟩

end Action

end LetLang
