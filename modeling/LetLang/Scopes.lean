import LetLang.Table

/-! # Scopes

A stack of frames that hold variables and functions.  The analysis keeps types in it and
the machine keeps values.

Every frame but the global one has two links: names that it does not define are looked
up in its `parent`, and leaving it goes back to its `previous` frame.  For a block both
are the frame around it; for a call the parent is the global frame, and the previous one
is the caller's.

Frames are left in the opposite order in which they were entered, so the current frame is
the last one and its number is free again after it is left. -/

namespace LetLang

/-- The position of a frame in the stack, counted from the global frame. -/
abbrev FrameId := Nat

/-- A function is known by its name and the number of its parameters. -/
abbrev FunctionKey := String × Nat

/-- A name that its frame defines already. -/
inductive ScopeError where
  | variableDefined (name : String)
  | functionDefined (name : String) (arity : Nat)
deriving DecidableEq, Repr

/-- The wording of an error. -/
def ScopeError.message : ScopeError → String
  | variableDefined name => "Variable '" ++ name ++ "' is already defined in this scope"
  | functionDefined name arity =>
    "Function '" ++ name ++ "/" ++ toString arity ++ "' is already defined in this scope"

/-- What one scope defines, and where it hangs. -/
structure Frame (V F : Type) where
  /-- Where a name is looked up next; the global frame has none. -/
  parent : Option FrameId
  /-- The frame that was current before this one; the global frame has none. -/
  previous : Option FrameId
  vars : Table String V
  functions : Table FunctionKey F

/-- A stack of frames, of which the first is the global one. -/
structure Scopes (V F : Type) where
  frames : Array (Frame V F)
  current : FrameId

namespace Scopes

variable {V F : Type}

/-- Only the global frame, with nothing in it. -/
def new : Scopes V F := ⟨#[⟨none, none, .empty, .empty⟩], 0⟩

/-- The global frame. -/
def global : FrameId := 0

/-- Number of frames, the global one included. -/
def depth (s : Scopes V F) : Nat := s.frames.size

/-! ## Entering and leaving -/

/-- Enter a frame whose names are looked up in `parent` next. -/
def pushChildOf (s : Scopes V F) (parent : FrameId) : Scopes V F :=
  let own := s.frames.size
  ⟨s.frames.push ⟨some parent, some s.current, .empty, .empty⟩, own⟩

/-- Enter a block: a frame inside the current one. -/
def push (s : Scopes V F) : Scopes V F := s.pushChildOf s.current

/-- Leave the last frame.  The global frame is never left. -/
def pop (s : Scopes V F) : Scopes V F :=
  if s.frames.size ≤ 1 then s
  else
    match s.frames.back? with
    | some frame => ⟨s.frames.pop, frame.previous.getD global⟩
    | none => s

/-! ## Looking up -/

/-- Follow the parents from frame `i`, for at most `n` frames, to the first one in which
    `get` finds something. -/
def searchFrom {α : Type} (frames : Array (Frame V F)) (get : Frame V F → Option α) :
    Nat → FrameId → Option (FrameId × α)
  | 0, _ => none
  | n + 1, i =>
    match frames[i]? with
    | none => none
    | some frame =>
      match get frame with
      | some a => some (i, a)
      | none =>
        match frame.parent with
        | some parent => searchFrom frames get n parent
        | none => none

/-- The nearest frame, from the current one outwards, in which `get` finds something. -/
def search {α : Type} (s : Scopes V F) (get : Frame V F → Option α) : Option (FrameId × α) :=
  searchFrom s.frames get s.frames.size s.current

/-- The variable of that name in the nearest frame that defines one. -/
def lookup? (s : Scopes V F) (name : String) : Option V :=
  (s.search fun frame => frame.vars.get? name).map (·.2)

/-- The function of that name and arity in the nearest frame that defines one. -/
def function? (s : Scopes V F) (name : String) (arity : Nat) : Option F :=
  (s.search fun frame => frame.functions.get? (name, arity)).map (·.2)

/-! ## Defining and assigning -/

/-- Change one frame. -/
@[inline] def modifyFrame (s : Scopes V F) (i : FrameId) (f : Frame V F → Frame V F) : Scopes V F :=
  { s with frames := s.frames.modify i f }

/-- Whether the current frame itself, and not one around it, defines something. -/
def definesHere {α : Type} (s : Scopes V F) (get : Frame V F → Option α) : Bool :=
  (s.frames[s.current]?.bind get).isSome

/-- Define a variable in the current frame.  It may hide one of a frame around it, but a
    frame defines a name only once. -/
@[inline] def defineVariable (s : Scopes V F) (name : String) (value : V) :
    Except ScopeError (Scopes V F) :=
  if s.definesHere fun frame => frame.vars.get? name then .error (.variableDefined name)
  else .ok <| s.modifyFrame s.current fun frame =>
    { frame with vars := frame.vars.insert name value }

/-- Define a function in the current frame, or replace the one it has. -/
@[inline] def redefineFunction (s : Scopes V F) (name : String) (arity : Nat) (function : F) :
    Scopes V F :=
  s.modifyFrame s.current fun frame =>
    { frame with functions := frame.functions.insert (name, arity) function }

/-- Define a function in the current frame, which defines none of that name and arity. -/
@[inline] def defineFunction (s : Scopes V F) (name : String) (arity : Nat) (function : F) :
    Except ScopeError (Scopes V F) :=
  if s.definesHere fun frame => frame.functions.get? (name, arity) then
    .error (.functionDefined name arity)
  else .ok (s.redefineFunction name arity function)

/-- Give the variable that `lookup?` finds another value; `none` if it finds none. -/
@[inline] def assign? (s : Scopes V F) (name : String) (value : V) : Option (Scopes V F) :=
  (s.search fun frame => frame.vars.get? name).map fun found =>
    s.modifyFrame found.1 fun frame =>
      { frame with vars := frame.vars.insert name value }

end Scopes

end LetLang
