import LetLang.Registry

/-! # The machine

The state of a running program, and the steps from which statements and expressions are
put together.  A step that stops with an error leaves the state as it was at that point;
scopes and the count of active calls are restored on the way out, whatever happens. -/

namespace LetLang

/-- What a function name in scope stands for. -/
inductive Callable where
  | native (native : Native)
  | method (method : Method)

/-- The state of a running program. -/
structure Machine where
  scopes : Scopes Value Callable
  world : World
  /-- Number of active calls of program methods. -/
  calls : Nat

/-- Why a computation has no result. -/
inductive Halt where
  /-- The program failed. -/
  | error (e : RuntimeError)
  /-- A `WHILE` has gone through all the rounds that it was allowed. -/
  | exhausted
deriving DecidableEq, Repr

/-- A computation of the machine. -/
abbrev Exec := EStateM Halt Machine

/-- How statements end. -/
inductive Completion where
  | normal
  /-- A `RETURN` on its way to the call that it ends. -/
  | returned (value : Value)
deriving DecidableEq, Repr

/-- What a call gives whose body ends so; one without `RETURN` gives `NIL`. -/
def Completion.value : Completion → Value
  | normal => .nil
  | returned value => value

namespace Exec

variable {α : Type}

/-- Stop with an error. -/
def fail (e : RuntimeError) : Exec α := throw (.error e)

/-- A result that may be an error. -/
def ofExcept : Except RuntimeError α → Exec α
  | .ok a => pure a
  | .error e => fail e

/-- A computation of a native. -/
def ofNative (x : NativeM α) : Exec α := fun m =>
  match x m.world with
  | .ok a world => .ok a { m with world := world }
  | .error e world => .error (.error e) { m with world := world }

/-- Change the scopes, unless a name is defined twice. -/
@[inline] def changeScopes (f : Scopes Value Callable → Except ScopeError (Scopes Value Callable)) :
    Exec Unit := fun m =>
  match f m.scopes with
  | .ok scopes => .ok () { m with scopes := scopes }
  | .error e => .error (.error (.scope e)) m

/-- Define a variable in the current scope. -/
@[inline] def defineVariable (name : String) (value : Value) : Exec Unit :=
  changeScopes (·.defineVariable name value)

/-- Define a function in the current scope. -/
def defineFunction (name : String) (arity : Nat) (callable : Callable) : Exec Unit :=
  changeScopes (·.defineFunction name arity callable)

/-- The value of a variable. -/
def readVariable (name : String) : Exec Value := fun m =>
  match m.scopes.lookup? name with
  | some v => .ok v m
  | none => .error (.error (.undefinedVariable name)) m

/-- Give a variable another value. -/
@[inline] def writeVariable (name : String) (value : Value) : Exec Unit := fun m =>
  match m.scopes.assign? name value with
  | some scopes => .ok () { m with scopes := scopes }
  | none => .error (.error (.undefinedVariable name)) m

/-- The function that a name and a number of arguments stand for. -/
def findFunction (name : String) (arity : Nat) : Exec Callable := fun m =>
  match m.scopes.function? name arity with
  | some callable => .ok callable m
  | none => .error (.error (.undefinedFunction name arity)) m

/-- Run `body` in a fresh scope whose names are looked up in `parent` next, and leave that
    scope however the body ends. -/
def inScope (parent : FrameId) (body : Exec α) : Exec α := fun m =>
  match body { m with scopes := m.scopes.pushChildOf parent } with
  | .ok a m' => .ok a { m' with scopes := m'.scopes.pop }
  | .error e m' => .error e { m' with scopes := m'.scopes.pop }

/-- Run `body` in a block inside the current scope. -/
def inBlock (body : Exec α) : Exec α := fun m => inScope m.scopes.current body m

/-- Run `body` as an active call of a program method. -/
def counted (body : Exec α) : Exec α := fun m =>
  match body { m with calls := m.calls + 1 } with
  | .ok a m' => .ok a { m' with calls := m'.calls - 1 }
  | .error e m' => .error e { m' with calls := m'.calls - 1 }

/-! ## Loops -/

/-- Run `body` for `n` consecutive integers from `k` on, up to the first round that
    returns. -/
def forRounds (body : Int → Exec Completion) : Int → Nat → Exec Completion
  | _, 0 => pure .normal
  | k, n + 1 => do
    match ← body k with
    | .normal => forRounds body (k + 1) n
    | .returned v => return .returned v

/-- Run `body` as long as `test` holds, up to the first round that returns; give up when
    `test` is due once more after the given number of rounds. -/
def whileRounds (test : Exec Bool) (body : Exec Completion) : Nat → Exec Completion
  | 0 => throw .exhausted
  | n + 1 => do
    if ← test then
      match ← body with
      | .normal => whileRounds test body n
      | .returned v => return .returned v
    else return .normal

end Exec

end LetLang
