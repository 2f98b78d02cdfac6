import LetLang.Machine
import LetLang.Syntax.Printer

/-! # Running a program

Globals are evaluated in order, methods are bound in the global scope, and then `main` is
called without arguments.

* A call runs in a fresh scope inside the global one, and never sees its caller's
  variables.
* A block runs in a fresh scope inside the current one; so does every round of a loop.

Evaluation follows the tree, and leaves it only where a method is called.  At most
`maxCalls` calls are active at a time, so `maxCalls + 1` levels of calls are enough.  Only
`WHILE` can go on for ever: it is given a number of rounds, and a run that would need more
of them has no result. -/

namespace LetLang

/-- What a run is given besides the program. -/
structure Env where
  objects : List ObjectType
  /-- How many rounds each `WHILE` may go through. -/
  rounds : Nat

/-- How a method is called with arguments. -/
abbrev Invoke := Method → List Value → Exec Value

namespace Exec

/-- Call the function that a name stands for, with already evaluated arguments. -/
def call (invoke : Invoke) (name : String) (values : List Value) : Exec Value := do
  match ← findFunction name values.length with
  | .native native => ofNative (native.call values)
  | .method method => invoke method values

/-! ## Expressions -/

mutual

/-- The value of an expression. -/
def evaluate (env : Env) (invoke : Invoke) : Expr → Exec Value
  | .literal _ value => pure value.toValue
  | .group _ inner => evaluate env invoke inner
  | .binary _ operator left right => do
    let a ← evaluate env invoke left
    match operator with
    -- The right operand is evaluated only when the left one does not decide.
    | .and =>
      if ← ofExcept a.toBool then
        let b ← evaluate env invoke right
        return .boolean (← ofExcept b.toBool)
      else return .boolean false
    | .or =>
      if ← ofExcept a.toBool then return .boolean true
      else
        let b ← evaluate env invoke right
        return .boolean (← ofExcept b.toBool)
    | operator =>
      let b ← evaluate env invoke right
      ofExcept (Value.binary operator a b)
  | .var _ name => readVariable name
  | .field _ receiver name => do
    let v ← evaluate env invoke receiver
    ofNative (NativeM.readField v name)
  | .call _ name items => do
    let values ← evaluateAll env invoke items
    call invoke name values
  | .invoke _ receiver name items => do
    let v ← evaluate env invoke receiver
    let native ← ofExcept (v.method env.objects name (items.length + 1))
    let values ← evaluateAll env invoke items
    ofNative (native.call (v :: values))

/-- The values of expressions, from the left. -/
def evaluateAll (env : Env) (invoke : Invoke) : List Expr → Exec (List Value)
  | [] => pure []
  | e :: rest => do
    let v ← evaluate env invoke e
    let values ← evaluateAll env invoke rest
    return v :: values

end

/-! ## Statements -/

/-- Define a variable; one without an initial value starts as `NIL`. -/
def declare (env : Env) (invoke : Invoke) (d : Declaration) : Exec Unit := do
  match d.initializer with
  | some e =>
    let v ← evaluate env invoke e
    defineVariable d.name v
  | none => defineVariable d.name .nil

/-- Assign to the place that `target` names. -/
def assign (env : Env) (invoke : Invoke) (target value : Expr) : Exec Unit := do
  match target with
  | .var _ name =>
    let v ← evaluate env invoke value
    writeVariable name v
  | .field _ receiver name =>
    let object ← evaluate env invoke receiver
    let v ← evaluate env invoke value
    ofNative (NativeM.writeField object name v)
  | _ => fail (.invalidTarget target.text)

mutual

/-- Run a statement. -/
def statement (env : Env) (invoke : Invoke) : Statement → Exec Completion
  | .expression value => do
    discard (evaluate env invoke value)
    return .normal
  | .declare d => do
    declare env invoke d
    return .normal
  | .assign target value => do
    assign env invoke target value
    return .normal
  | .ifElse condition thenBody elseBody => do
    let v ← evaluate env invoke condition
    if ← ofExcept v.toBool then inBlock (statements env invoke thenBody)
    else inBlock (statements env invoke elseBody)
  | .forIn name iterable body => do
    let v ← evaluate env invoke iterable
    match v.elements? with
    | none => fail (.notIterable v.typeName)
    | some (start, count) =>
      forRounds
        (fun k => inBlock do
          defineVariable name (.integer k)
          statements env invoke body)
        start count
  | .whileDo condition body =>
    whileRounds
      (do
        let v ← evaluate env invoke condition
        ofExcept v.toBool)
      (inBlock (statements env invoke body))
      env.rounds
  | .returns value => do
    let v ← evaluate env invoke value
    return .returned v

/-- Run statements in order, up to the first one that returns. -/
def statements (env : Env) (invoke : Invoke) : List Statement → Exec Completion
  | [] => pure .normal
  | s :: rest => do
    match ← statement env invoke s with
    | .normal => statements env invoke rest
    | .returned v => return .returned v

end

/-! ## Calls and programs -/

/-- Define the parameters of a method in the current scope. -/
def defineParameters : List Parameter → List Value → Exec Unit
  | p :: ps, v :: vs => do
    defineVariable p.name v
    defineParameters ps vs
  | _, _ => pure ()

/-- Call a method, with at most `n` calls inside one another. -/
def invokeWithin (env : Env) : Nat → Invoke
  | 0, method, _ => fail (.callDepthExceeded method.name)
  | n + 1, method, values => do
    if maxCalls ≤ (← get).calls then fail (.callDepthExceeded method.name)
    else
      let completion ← counted <| inScope Scopes.global do
        defineParameters method.parameters values
        statements env (invokeWithin env n) method.body
      return completion.value

/-- Call a method. -/
def invoke (env : Env) : Invoke := invokeWithin env (maxCalls + 1)

/-- Define a method of a program. -/
def defineMethod (m : Method) : Exec Unit :=
  defineFunction m.name m.parameters.length (.method m)

/-- Run a program, and give the integer that `main` returns. -/
def execute (env : Env) (source : Source) : Exec Int := do
  source.fields.forM (declare env (invoke env))
  source.methods.forM defineMethod
  match ← call (invoke env) "main" [] with
  | .integer n => return n
  | v => fail (.nonIntegerResult v.typeName)

end Exec

/-- The scopes in which a program starts: the global one, with the given natives. -/
def nativeScopes (natives : List Native) : Except ScopeError (Scopes Value Callable) :=
  natives.foldlM
    (fun scopes native =>
      scopes.defineFunction native.name native.signature.arity (.native native))
    Scopes.new

/-- A machine whose global scope holds the natives of a registry. -/
def Machine.new (r : Registry) (world : World) : Except RuntimeError Machine :=
  match nativeScopes r.functions with
  | .ok scopes => .ok ⟨scopes, world, 0⟩
  | .error e => .error (.scope e)

end LetLang
