import LetLang.Proofs.Scopes
import LetLang.RuntimeError
import LetLang.Syntax

/-! # Renaming variables

What becomes of a program, and of the scopes that it is checked and run in, when every variable
gets another name.  Functions, methods, fields of objects and types keep theirs.

Scopes are renamed as a whole, so that "the renamed program does the same in the renamed scopes"
is an equation.  As long as different variables get different names, renaming commutes with
everything that can be done with scopes:

* `Scopes.lookup?_rename`, `Scopes.function?_rename`          looking up
* `Scopes.defineVariable_rename`, `Scopes.assign?_rename`     defining and assigning
* `Scopes.rename_pushChildOf`, `Scopes.rename_pop`            entering and leaving
-/

namespace LetLang

/-! ## Programs -/

mutual

/-- The expression with `f` applied to the names of variables. -/
def Expr.rename (f : String → String) : Expr → Expr
  | .literal id value => .literal id value
  | .group id inner => .group id (inner.rename f)
  | .binary id operator left right => .binary id operator (left.rename f) (right.rename f)
  | .var id name => .var id (f name)
  | .field id receiver name => .field id (receiver.rename f) name
  | .call id name items => .call id name (Expr.listRename f items)
  | .invoke id receiver name items => .invoke id (receiver.rename f) name (Expr.listRename f items)

/-- The expressions with `f` applied to the names of variables. -/
def Expr.listRename (f : String → String) : List Expr → List Expr
  | [] => []
  | e :: rest => e.rename f :: Expr.listRename f rest

end

/-- The declaration of a variable with its name changed. -/
def Declaration.rename (f : String → String) (d : Declaration) : Declaration :=
  { d with name := f d.name, initializer := d.initializer.map (Expr.rename f) }

mutual

/-- The statement with `f` applied to the names of variables. -/
def Statement.rename (f : String → String) : Statement → Statement
  | .expression value => .expression (value.rename f)
  | .declare d => .declare (d.rename f)
  | .assign target value => .assign (target.rename f) (value.rename f)
  | .ifElse condition thenBody elseBody =>
    .ifElse (condition.rename f) (Statement.listRename f thenBody) (Statement.listRename f elseBody)
  | .forIn name iterable body => .forIn (f name) (iterable.rename f) (Statement.listRename f body)
  | .whileDo condition body => .whileDo (condition.rename f) (Statement.listRename f body)
  | .returns value => .returns (value.rename f)

/-- The statements with `f` applied to the names of variables. -/
def Statement.listRename (f : String → String) : List Statement → List Statement
  | [] => []
  | s :: rest => s.rename f :: Statement.listRename f rest

end

/-- The parameter with its name changed. -/
def Parameter.rename (f : String → String) (p : Parameter) : Parameter :=
  { p with name := f p.name }

/-- The method with `f` applied to its parameters and to the variables of its body. -/
def Method.rename (f : String → String) (m : Method) : Method :=
  { m with
    parameters := m.parameters.map (Parameter.rename f)
    body := Statement.listRename f m.body }

/-- The program with `f` applied to the names of variables and to nothing else. -/
def Source.rename (f : String → String) (s : Source) : Source :=
  ⟨s.fields.map (Declaration.rename f), s.methods.map (Method.rename f)⟩

/-- The name in an error changes if it is the name of a variable. -/
def ScopeError.rename (f : String → String) : ScopeError → ScopeError
  | variableDefined name => .variableDefined (f name)
  | functionDefined name arity => .functionDefined name arity

section Shapes

variable (f : String → String)

@[simp] theorem Expr.length_listRename : ∀ items : List Expr,
    (Expr.listRename f items).length = items.length
  | [] => by rw [Expr.listRename]
  | e :: rest => by
    rw [Expr.listRename, List.length_cons, Expr.length_listRename rest, List.length_cons]

@[simp] theorem Expr.isBinary_rename (e : Expr) : (e.rename f).isBinary = e.isBinary := by
  cases e <;> rw [Expr.rename] <;> rfl

@[simp] theorem Expr.isAccess_rename (e : Expr) : (e.rename f).isAccess = e.isAccess := by
  cases e <;> rw [Expr.rename] <;> rfl

@[simp] theorem Expr.isCall_rename (e : Expr) : (e.rename f).isCall = e.isCall := by
  cases e <;> rw [Expr.rename] <;> rfl

@[simp] theorem Statement.isEmpty_listRename (body : List Statement) :
    (Statement.listRename f body).isEmpty = body.isEmpty := by
  cases body <;> rw [Statement.listRename] <;> rfl

end Shapes

/-! ## Tables -/

namespace Table

variable {κ κ' α α' : Type}

/-- The table with other keys and other values. -/
def rename (f : κ → κ') (g : α → α') (t : Table κ α) : Table κ' α' :=
  ⟨t.entries.map fun e => (f e.1, g e.2)⟩

variable [DecidableEq κ] [DecidableEq κ'] {f : κ → κ'} {g : α → α'}

/-- With distinct names the same entry is found. -/
private theorem lookup_map (hf : Function.Injective f) (k : κ) (l : List (κ × α)) :
    lookup (f k) (l.map fun e => (f e.1, g e.2)) = (lookup k l).map g := by
  induction l with
  | nil => rfl
  | cons e rest ih =>
    simp only [List.map_cons, lookup, hf.eq_iff]
    split
    · rfl
    · exact ih

/-- What was under a key is under the new one. -/
private theorem get?_rename (hf : Function.Injective f) (t : Table κ α) (k : κ) :
    (t.rename f g).get? (f k) = (t.get? k).map g :=
  lookup_map hf k t.entries

/-- The same entry is replaced. -/
private theorem replace_map (hf : Function.Injective f) (k : κ) (v : α) (l : List (κ × α)) :
    (replace k v l).map (fun e => (f e.1, g e.2)) =
      replace (f k) (g v) (l.map fun e => (f e.1, g e.2)) := by
  induction l with
  | nil => rfl
  | cons e rest ih =>
    simp only [List.map_cons, replace, hf.eq_iff]
    split
    · rfl
    · rw [List.map_cons, ih]

/-- A renamed entry goes into the renamed table. -/
private theorem rename_insert (hf : Function.Injective f) (t : Table κ α) (k : κ) (v : α) :
    (t.insert k v).rename f g = (t.rename f g).insert (f k) (g v) := by
  have hcontains : (t.rename f g).contains (f k) = t.contains k := by
    rw [contains, get?_rename hf, Option.isSome_map, contains]
  unfold insert
  rw [hcontains]
  split
  · exact congrArg Table.mk (replace_map hf k v t.entries)
  · rfl

end Table

/-! ## Scopes -/

/-- The frame with other variables and other functions, under the same function names. -/
def Frame.rename {V V' F F' : Type} (f : String → String) (g : V → V') (h : F → F')
    (frame : Frame V F) : Frame V' F' :=
  ⟨frame.parent, frame.previous, frame.vars.rename f g, frame.functions.rename id h⟩

namespace Scopes

variable {V V' F F' α α' : Type}

/-- The scopes with `f` applied to the names of variables, and with other values. -/
def rename (f : String → String) (g : V → V') (h : F → F') (s : Scopes V F) : Scopes V' F' :=
  ⟨s.frames.map (Frame.rename f g h), s.current⟩

variable {f : String → String} {g : V → V'} {h : F → F'} {s : Scopes V F}

private theorem rename_frame (i : Nat) :
    (s.rename f g h).frames[i]? = s.frames[i]?.map (Frame.rename f g h) := by
  simp only [rename, Array.getElem?_map]

@[simp] theorem rename_current : (s.rename f g h).current = s.current := rfl

@[simp] theorem rename_size : (s.rename f g h).frames.size = s.frames.size := by
  simp only [rename, Array.size_map]

theorem rename_new : (new : Scopes V F).rename f g h = new := by
  simp only [rename, new, List.map_toArray, List.map_cons, List.map_nil, Frame.rename]
  rfl

/-- Two stacks with the same frames are the same. -/
private theorem ext_frames {s s' : Scopes V F} (hcurrent : s.current = s'.current)
    (hframes : ∀ i : Nat, s.frames[i]? = s'.frames[i]?) : s = s' := by
  obtain ⟨frames, current⟩ := s
  obtain ⟨frames', current'⟩ := s'
  cases hcurrent
  exact congrArg (Scopes.mk · current) (Array.ext_getElem? hframes)

/-! ### Looking up -/

/-- A frame has the renamed variable. -/
private theorem found_var_rename (hf : Function.Injective f) (name : String) (i : Nat) :
    (s.rename f g h).found (·.vars.get? (f name)) i = (s.found (·.vars.get? name) i).map g := by
  simp only [found, rename_frame]
  cases s.frames[i]? with
  | none => rfl
  | some frame => exact Table.get?_rename hf frame.vars name

/-- A frame has the renamed function under the old key. -/
private theorem found_function_rename (key : FunctionKey) (i : Nat) :
    (s.rename f g h).found (·.functions.get? key) i =
      (s.found (·.functions.get? key) i).map h := by
  simp only [found, rename_frame]
  cases s.frames[i]? with
  | none => rfl
  | some frame => exact Table.get?_rename Function.injective_id frame.functions key

/-- A search in the renamed scopes takes the same way. -/
private theorem search_rename {get : Frame V F → Option α} {get' : Frame V' F' → Option α'}
    {c : α → α'} (hget : ∀ frame, get' (frame.rename f g h) = (get frame).map c) :
    (s.rename f g h).search get' = (s.search get).map fun place => (place.1, c place.2) := by
  -- The number of frames to go is the same, so it is generalized together with the frame.
  have hfrom : ∀ n i, searchFrom (s.rename f g h).frames get' n i =
      (searchFrom s.frames get n i).map fun place => (place.1, c place.2) := by
    intro n
    induction n with
    | zero => intro i; rfl
    | succ n ih =>
      intro i
      simp only [searchFrom, rename_frame]
      cases s.frames[i]? with
      | none => rfl
      | some frame =>
        simp only [Option.map_some, hget]
        cases get frame with
        | some a => rfl
        | none =>
          simp only [Option.map_none, Frame.rename]
          cases frame.parent with
          | none => rfl
          | some parent => exact ih parent
  rw [search, search, rename_size]
  exact hfrom _ _

/-- The search for a renamed variable ends in the same frame. -/
private theorem search_var_rename (hf : Function.Injective f) (name : String) :
    (s.rename f g h).search (·.vars.get? (f name)) =
      (s.search (·.vars.get? name)).map fun place => (place.1, g place.2) :=
  search_rename fun frame => Table.get?_rename hf frame.vars name

/-- A variable is found under its new name. -/
theorem lookup?_rename (hf : Function.Injective f) (name : String) :
    (s.rename f g h).lookup? (f name) = (s.lookup? name).map g := by
  rw [lookup?, search_var_rename hf, lookup?, Option.map_map, Option.map_map]
  rfl

/-- A function is found under its old one. -/
theorem function?_rename (name : String) (arity : Nat) :
    (s.rename f g h).function? name arity = (s.function? name arity).map h := by
  have hsearch : (s.rename f g h).search (·.functions.get? (name, arity)) =
      (s.search (·.functions.get? (name, arity))).map fun place => (place.1, h place.2) :=
    search_rename fun frame => Table.get?_rename Function.injective_id frame.functions _
  rw [function?, hsearch, function?, Option.map_map, Option.map_map]
  rfl

/-! ### Defining and assigning -/

/-- A variable is stored under its new name. -/
private theorem rename_store (hf : Function.Injective f) (i : Nat) (name : String) (value : V) :
    (s.store i name value).rename f g h = (s.rename f g h).store i (f name) (g value) := by
  refine ext_frames rfl fun j => ?_
  rw [rename_frame, store_frame, store_frame, rename_frame]
  split
  · rw [Option.map_map, Option.map_map]
    refine congrArg (Option.map · s.frames[j]?) (funext fun frame => ?_)
    simp only [Function.comp, Frame.rename, Table.rename_insert hf]
  · rfl

theorem rename_redefineFunction (name : String) (arity : Nat) (function : F) :
    (s.redefineFunction name arity function).rename f g h =
      (s.rename f g h).redefineFunction name arity (h function) := by
  refine ext_frames rfl fun j => ?_
  rw [rename_frame, redefineFunction_frame, redefineFunction_frame, rename_frame, rename_current]
  split
  · rw [Option.map_map, Option.map_map]
    refine congrArg (Option.map · s.frames[j]?) (funext fun frame => ?_)
    simp only [Function.comp, Frame.rename, Table.rename_insert Function.injective_id, id]
  · rfl

/-- A variable is defined under its new name, or it is the new name that is taken. -/
theorem defineVariable_rename (hf : Function.Injective f) (name : String) (value : V) :
    (s.rename f g h).defineVariable (f name) (g value) =
      ((s.defineVariable name value).map (Scopes.rename f g h)).mapError (ScopeError.rename f) := by
  rw [defineVariable_eq, defineVariable_eq, rename_current, found_var_rename hf,
    Option.isSome_map]
  split
  · rfl
  · exact congrArg Except.ok (rename_store hf _ _ _).symm

/-- A function is defined under its old name, or that name is taken. -/
theorem defineFunction_rename (name : String) (arity : Nat) (function : F) :
    (s.rename f g h).defineFunction name arity (h function) =
      ((s.defineFunction name arity function).map (Scopes.rename f g h)).mapError
        (ScopeError.rename f) := by
  -- Functions keep their names, so the name is free before exactly if it is free after.
  have hdefines : ((s.rename f g h).definesHere fun frame => frame.functions.get? (name, arity)) =
      s.definesHere fun frame => frame.functions.get? (name, arity) := by
    have hfound := congrArg Option.isSome
      (found_function_rename (f := f) (g := g) (h := h) (s := s) (name, arity) s.current)
    rwa [Option.isSome_map] at hfound
  unfold defineFunction
  rw [hdefines]
  split
  · rfl
  · exact congrArg Except.ok (rename_redefineFunction _ _ _).symm

/-- An assignment goes to the same frame. -/
theorem assign?_rename (hf : Function.Injective f) (name : String) (value : V) :
    (s.rename f g h).assign? (f name) (g value) =
      (s.assign? name value).map (Scopes.rename f g h) := by
  rw [assign?_eq, assign?_eq, search_var_rename hf, Option.map_map, Option.map_map]
  exact congrArg (Option.map · _) (funext fun place => (rename_store hf _ _ _).symm)

/-! ### Entering and leaving -/

/-- Frames are pushed alike. -/
theorem rename_pushChildOf (parent : FrameId) :
    (s.pushChildOf parent).rename f g h = (s.rename f g h).pushChildOf parent := by
  unfold pushChildOf rename
  simp only [Array.map_push, Array.size_map]
  rfl

/-- Frames are popped alike. -/
theorem rename_pop : s.pop.rename f g h = (s.rename f g h).pop := by
  unfold pop
  rw [rename_size]
  split
  · rfl
  · simp only [rename, Array.back?_map]
    cases s.frames.back? with
    | none => rfl
    | some frame => simp only [Option.map_some, Array.map_pop, Frame.rename]

end Scopes

end LetLang
