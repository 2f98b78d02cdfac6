import LetLang.Proofs.Lockstep
import LetLang.Proofs.Outcome
import LetLang.Proofs.Scopes

/-! # What a computation leaves as it was

Expressions and calls change no frame but the global one, and there only the values of
variables; statements change no frame below the one of their call.  Whatever happens, the
stack has its old shape afterwards and the count of active calls is what it was.

* `Machine.Keeps b`   two states agree but for variables of the frames from `b` on and for
  the values of globals
* `Exec.Quiet`        a computation that keeps all frames, such as an expression or a call
* `Exec.Tidy`         a computation that keeps the frames below its call, such as a statement

Both are closed under the ways in which the machine puts computations together, so they are
relations that the steps of the machine respect (`exprLockstep_quiet`, `lockstep_tidy`), and
`quiet_evaluate`, `tidy_statements` and `quiet_invokeWithin` follow. -/

namespace LetLang

open Scopes

/-- The second state has the shape of the first, the same frames between the global one and
    frame `b`, the same global names and the same number of active calls. -/
structure Machine.Keeps (b : Nat) (m m' : Machine) : Prop where
  calls : m'.calls = m.calls
  shape : SameShape m.scopes m'.scopes
  locals : ∀ i, 0 < i → i < b → m'.scopes.frames[i]? = m.scopes.frames[i]?
  globals : m'.scopes.frames[0]?.map (·.vars.keys) = m.scopes.frames[0]?.map (·.vars.keys)

namespace Machine.Keeps

variable {b c : Nat} {m m' m'' : Machine}

/-- Every state keeps itself. -/
theorem refl (b : Nat) (m : Machine) : m.Keeps b m :=
  ⟨rfl, .refl _, fun _ _ _ => rfl, rfl⟩

/-- What is kept step by step is kept altogether. -/
theorem trans (h : m.Keeps b m') (h' : m'.Keeps b m'') : m.Keeps b m'' where
  calls := h'.calls.trans h.calls
  shape := h.shape.trans h'.shape
  locals := fun i h0 hi => (h'.locals i h0 hi).trans (h.locals i h0 hi)
  globals := h'.globals.trans h.globals

/-- Who keeps more frames keeps fewer. -/
theorem mono (h : m.Keeps b m') (hc : c ≤ b) : m.Keeps c m' :=
  { h with locals := fun i h0 hi => h.locals i h0 (by omega) }

/-- Nothing but the world has changed. -/
theorem of_scopes_eq (hs : m'.scopes = m.scopes) (hc : m'.calls = m.calls) : m.Keeps b m' where
  calls := hc
  shape := by rw [hs]; exact .refl _
  locals := fun i _ _ => by rw [hs]
  globals := by rw [hs]

end Machine.Keeps

namespace Exec

variable {α β : Type}

/-! ## Steps of the machine -/

section Steps

variable {m : Machine} {Q : α → Machine → Prop} {E : Halt → Machine → Prop}

/-- A check either passes or fails, and changes nothing. -/
theorem ends_ofExcept {x : Except RuntimeError α} :
    Ends (ofExcept x) m Q E ↔
      match x with
      | .ok a => Q a m
      | .error e => E (.error e) m := by
  cases x <;> rfl

/-- A native sees and changes the world only. -/
theorem ends_ofNative {x : NativeM α} :
    Ends (ofNative x) m Q E ↔
      Ends x m.world (fun a w => Q a { m with world := w })
        (fun e w => E (.error e) { m with world := w }) := by
  unfold Ends ofNative
  cases x m.world <;> rfl

/-- A change of the scopes that fails leaves them as they were. -/
theorem ends_changeScopes {Q : Unit → Machine → Prop}
    {f : Scopes Value Callable → Except ScopeError (Scopes Value Callable)} :
    Ends (changeScopes f) m Q E ↔
      match f m.scopes with
      | .ok scopes => Q () { m with scopes := scopes }
      | .error e => E (.error (.scope e)) m := by
  unfold Ends changeScopes
  cases f m.scopes <;> rfl

/-- A variable is defined in the current scope, unless its name is taken there. -/
theorem ends_defineVariable {Q : Unit → Machine → Prop} {name : String} {value : Value} :
    Ends (defineVariable name value) m Q E ↔
      match m.scopes.defineVariable name value with
      | .ok scopes => Q () { m with scopes := scopes }
      | .error e => E (.error (.scope e)) m :=
  ends_changeScopes

/-- A function is defined in the current scope, unless its key is taken there. -/
theorem ends_defineFunction {Q : Unit → Machine → Prop} {name : String} {arity : Nat}
    {callable : Callable} :
    Ends (defineFunction name arity callable) m Q E ↔
      match m.scopes.defineFunction name arity callable with
      | .ok scopes => Q () { m with scopes := scopes }
      | .error e => E (.error (.scope e)) m :=
  ends_changeScopes

/-- A variable is read where it is found. -/
theorem ends_readVariable {Q : Value → Machine → Prop} {name : String} :
    Ends (readVariable name) m Q E ↔
      match m.scopes.lookup? name with
      | some v => Q v m
      | none => E (.error (.undefinedVariable name)) m := by
  unfold Ends readVariable
  cases m.scopes.lookup? name <;> rfl

/-- A variable is written in the frame where it is found. -/
theorem ends_writeVariable {Q : Unit → Machine → Prop} {name : String} {value : Value} :
    Ends (writeVariable name value) m Q E ↔
      match m.scopes.search fun frame => frame.vars.get? name with
      | some found => Q () { m with scopes := m.scopes.store found.1 name value }
      | none => E (.error (.undefinedVariable name)) m := by
  unfold Ends writeVariable
  rw [assign?_eq]
  cases m.scopes.search fun frame => frame.vars.get? name <;> rfl

/-- A function is looked up by name and arity. -/
theorem ends_findFunction {Q : Callable → Machine → Prop} {name : String} {arity : Nat} :
    Ends (findFunction name arity) m Q E ↔
      match m.scopes.function? name arity with
      | some callable => Q callable m
      | none => E (.error (.undefinedFunction name arity)) m := by
  unfold Ends findFunction
  cases m.scopes.function? name arity <;> rfl

/-- A scope is left in the same way after a value and after an error. -/
theorem ends_inScope {parent : FrameId} {body : Exec α} :
    Ends (inScope parent body) m Q E ↔
      Ends body { m with scopes := m.scopes.pushChildOf parent }
        (fun a m' => Q a { m' with scopes := m'.scopes.pop })
        (fun e m' => E e { m' with scopes := m'.scopes.pop }) := by
  unfold Ends inScope
  cases body { m with scopes := m.scopes.pushChildOf parent } <;> rfl

/-- A call is counted and taken from the count again, after a value and after an error. -/
theorem ends_counted {body : Exec α} :
    Ends (counted body) m Q E ↔
      Ends body { m with calls := m.calls + 1 }
        (fun a m' => Q a { m' with calls := m'.calls - 1 })
        (fun e m' => E e { m' with calls := m'.calls - 1 }) := by
  unfold Ends counted
  cases body { m with calls := m.calls + 1 } <;> rfl

/-- A scope is entered before the body and left behind it, however the body ends. -/
theorem inScope_eq_mapState (parent : FrameId) (body : Exec α) (m : Machine) :
    inScope parent body m =
      mapState (fun m' => { m' with scopes := m'.scopes.pop })
        (body { m with scopes := m.scopes.pushChildOf parent }) := by
  unfold inScope
  cases body { m with scopes := m.scopes.pushChildOf parent } <;> rfl

/-- The count goes up before the body and down behind it, however the body ends. -/
theorem counted_eq_mapState (body : Exec α) (m : Machine) :
    counted body m =
      mapState (fun m' => { m' with calls := m'.calls - 1 })
        (body { m with calls := m.calls + 1 }) := by
  unfold counted
  cases body { m with calls := m.calls + 1 } <;> rfl

end Steps

/-! ## Keeping frames -/

/-- However `x` ends, started in `m`, it keeps the frames below `b`. -/
def Restores (x : Exec α) (b : Nat) (m : Machine) : Prop :=
  Ends x m (fun _ m' => m.Keeps b m') (fun _ m' => m.Keeps b m')

/-- The second of two computations may start wherever the first one ends. -/
theorem Restores.bind {x : Exec α} {f : α → Exec β} {b : Nat} {m : Machine}
    (hx : x.Restores b m)
    (hf : ∀ a m', x m = .ok a m' → m.Keeps b m' → (f a).Restores b m') :
    Restores (x >>= f) b m := by
  unfold Restores
  rw [ends_bind]
  apply Ends.imp hx
  · intro a m' hrun hkeep
    exact (hf a m' hrun hkeep).imp (fun _ _ _ h => hkeep.trans h) (fun _ _ _ h => hkeep.trans h)
  · intro e m' _ hkeep
    exact hkeep

/-- A value at once changes nothing. -/
private theorem restores_pure (a : α) (b : Nat) (m : Machine) : Restores (pure a) b m := .refl b m

/-- A body that keeps the frames below `b`, run in a frame of its own. -/
theorem Restores.inScope {body : Exec α} {b : Nat} {m : Machine} {parent : FrameId}
    (hroot : m.scopes.Rooted) (hb : b ≤ m.scopes.frames.size)
    (h : body.Restores b { m with scopes := m.scopes.pushChildOf parent }) :
    (inScope parent body).Restores b m := by
  have hpos := hroot.size_pos
  -- What is kept of the longer stack is kept of the shorter one behind the body.
  have hkeep : ∀ m' : Machine,
      Machine.Keeps b { m with scopes := m.scopes.pushChildOf parent } m' →
      m.Keeps b { m' with scopes := m'.scopes.pop } := by
    intro m' hk
    refine ⟨hk.calls, hk.shape.pop hpos, fun i h0 hi => ?_, ?_⟩
    · rw [pop_frame_of_sameShape_push hk.shape hpos (by omega), hk.locals i h0 hi]
      exact pushChildOf_frame_lt _ _ (by omega)
    · rw [pop_frame_of_sameShape_push hk.shape hpos hpos, hk.globals]
      exact congrArg _ (pushChildOf_frame_lt _ _ hpos)
  rw [Restores, ends_inScope]
  exact Ends.imp h (fun _ m' _ => hkeep m') (fun _ m' _ => hkeep m')

/-- A body that is counted as an active call. -/
theorem Restores.counted {body : Exec α} {b : Nat} {m : Machine}
    (h : body.Restores b { m with calls := m.calls + 1 }) : (counted body).Restores b m := by
  -- The count goes up and down once, whatever the body does in between.
  have hkeep : ∀ m' : Machine, Machine.Keeps b { m with calls := m.calls + 1 } m' →
      m.Keeps b { m' with calls := m'.calls - 1 } := by
    intro m' hk
    refine ⟨?_, hk.shape, hk.locals, hk.globals⟩
    show m'.calls - 1 = m.calls
    rw [hk.calls, Nat.add_sub_cancel]
  rw [Restores, ends_counted]
  exact Ends.imp h (fun _ m' _ => hkeep m') (fun _ m' _ => hkeep m')

/-! ## Quiet computations -/

/-- The computation keeps every frame; of the global one, all but the values. -/
def Quiet (x : Exec α) : Prop :=
  ∀ m : Machine, m.scopes.Rooted → ∀ b ≤ m.scopes.frames.size, x.Restores b m

/-- A computation that has no effect on scopes and calls. -/
private theorem quiet_of_scopes_eq {x : Exec α}
    (h : ∀ m, Ends x m (fun _ m' => m'.scopes = m.scopes ∧ m'.calls = m.calls)
      (fun _ m' => m'.scopes = m.scopes ∧ m'.calls = m.calls)) : Quiet x := by
  intro m _ b _
  exact (h m).imp (fun _ _ _ h => .of_scopes_eq h.1 h.2) (fun _ _ _ h => .of_scopes_eq h.1 h.2)

/-- A value at once keeps everything. -/
private theorem quiet_pure (a : α) : Quiet (pure a) := fun m _ b _ => restores_pure a b m

/-- A failure changes nothing. -/
theorem quiet_fail (e : RuntimeError) : Quiet (fail e : Exec α) := fun m _ b _ => .refl b m

/-- A check changes nothing. -/
theorem quiet_ofExcept (x : Except RuntimeError α) : Quiet (ofExcept x) := by
  cases x with
  | ok a => exact quiet_pure a
  | error e => exact quiet_fail e

/-- Natives have no access to the scopes. -/
theorem quiet_ofNative (x : NativeM α) : Quiet (ofNative x) := by
  apply quiet_of_scopes_eq
  intro m
  rw [ends_ofNative, Ends]
  cases x m.world <;> exact ⟨rfl, rfl⟩

/-- Reading a variable changes nothing. -/
theorem quiet_readVariable (name : String) : Quiet (readVariable name) := by
  apply quiet_of_scopes_eq
  intro m
  rw [ends_readVariable]
  cases m.scopes.lookup? name <;> exact ⟨rfl, rfl⟩

/-- Looking up a function changes nothing. -/
private theorem quiet_findFunction (name : String) (arity : Nat) :
    Quiet (findFunction name arity) := by
  apply quiet_of_scopes_eq
  intro m
  rw [ends_findFunction]
  cases m.scopes.function? name arity <;> exact ⟨rfl, rfl⟩

/-- One quiet computation after another is quiet. -/
theorem Quiet.bind {x : Exec α} {f : α → Exec β} (hx : Quiet x) (hf : ∀ a, Quiet (f a)) :
    Quiet (x >>= f) := by
  intro m hroot b hb
  refine (hx m hroot b hb).bind fun a m' _ hk => ?_
  exact hf a m' (hk.shape.rooted hroot) b (by rw [hk.shape.size]; exact hb)

/-- A choice between two quiet computations is quiet. -/
theorem Quiet.ite {p : Prop} [Decidable p] {x y : Exec α} (hx : Quiet x) (hy : Quiet y) :
    Quiet (if p then x else y) := by
  split
  · exact hx
  · exact hy

/-! ## Tidy computations -/

/-- The computation, run inside a call, keeps the frames below that call. -/
def Tidy (x : Exec α) : Prop :=
  ∀ (m : Machine) (b k : Nat), Located b (k + 1) m.scopes → x.Restores b m

/-- What keeps all frames keeps those below the call. -/
theorem Quiet.tidy {x : Exec α} (h : Quiet x) : Tidy x := by
  intro m b k hloc
  exact h m hloc.rooted b (by rw [hloc.size_eq]; omega)

/-- A value at once is tidy. -/
theorem tidy_pure (a : α) : Tidy (pure a) := (quiet_pure a).tidy

/-- One tidy computation after another is tidy. -/
theorem Tidy.bind {x : Exec α} {f : α → Exec β} (hx : Tidy x) (hf : ∀ a, Tidy (f a)) :
    Tidy (x >>= f) := by
  intro m b k hloc
  refine (hx m b k hloc).bind fun a m' _ hk => ?_
  exact hf a m' b k (hk.shape.located hloc)

/-- Storing a variable in a visible frame; in the global one it has to be there already. -/
private theorem keeps_store {m : Machine} {b k j : Nat} (hloc : Located b k m.scopes)
    (name : String) (value : Value)
    (hglobal : j = 0 → (m.scopes.found (·.vars.get? name) 0).isSome) :
    m.Keeps b { m with scopes := m.scopes.store (place b j) name value } where
  calls := rfl
  shape := sameShape_store _ _ _ _
  locals := fun i h0 hi => by
    have hb := hloc.base_pos
    show (m.scopes.store (place b j) name value).frames[i]? = m.scopes.frames[i]?
    rw [store_frame, if_neg]
    -- A frame between the global one and `b` is not visible.
    intro heq
    cases j with
    | zero => rw [place_zero] at heq; omega
    | succ j => rw [place_succ] at heq; omega
  globals := by
    have hb := hloc.base_pos
    show (m.scopes.store (place b j) name value).frames[0]?.map (·.vars.keys) = _
    rw [store_frame]
    cases j with
    | succ j => rw [if_neg (by rw [place_succ]; omega)]
    | zero =>
      obtain ⟨f, hf, _⟩ := hloc.globalFrame
      -- A name that the global frame has already is not a new key.
      have hmem : name ∈ f.vars.keys := by
        rw [← Table.contains_iff]
        simpa [found, hf, Table.contains] using hglobal rfl
      simp [hf, Table.keys_insert, hmem]

/-- An assignment changes a frame of the call, or the value of a global. -/
theorem tidy_writeVariable (name : String) (value : Value) : Tidy (writeVariable name value) := by
  intro m b k hloc
  rw [Restores, ends_writeVariable]
  cases hs : m.scopes.search (fun frame => frame.vars.get? name) with
  | none => exact .refl b m
  | some found =>
    obtain ⟨i, v⟩ := found
    -- The variable is stored where the search has found it.
    obtain ⟨j, _, rfl, hfound, _⟩ := (search_eq_some_iff hloc _ _ _).mp hs
    refine keeps_store hloc name value fun hj => ?_
    subst hj
    rw [place_zero] at hfound
    rw [hfound]
    rfl

/-- A definition changes the current frame, which is one of the call. -/
theorem tidy_defineVariable (name : String) (value : Value) :
    Tidy (defineVariable name value) := by
  intro m b k hloc
  rw [Restores, ends_defineVariable]
  cases hd : m.scopes.defineVariable name value with
  | error e => exact .refl b m
  | ok scopes =>
    obtain ⟨_, rfl⟩ := defineVariable_eq_ok_iff.mp hd
    rw [hloc.current_eq]
    -- Inside a call the current frame is not the global one.
    exact keeps_store hloc name value fun hj => by omega

/-- A block of the call takes its frame away again. -/
theorem Tidy.inBlock {body : Exec α} (h : Tidy body) : Tidy (inBlock body) := by
  intro m b k hloc
  apply Restores.inScope hloc.rooted (by rw [hloc.size_eq]; omega)
  exact h _ b (k + 1) hloc.push

/-- A call: the frame in which the body runs is gone afterwards. -/
theorem Tidy.call {body : Exec α} (h : Tidy body) : Quiet (counted (inScope global body)) := by
  intro m hroot b hb
  apply Restores.counted
  apply Restores.inScope (m := { m with calls := m.calls + 1 }) hroot hb
  -- Below the frame of the call lies everything that the caller had.
  have := h { m with calls := m.calls + 1, scopes := m.scopes.pushChildOf global }
    m.scopes.frames.size 0 hroot.enterCall
  exact this.imp (fun _ _ _ hk => hk.mono hb) (fun _ _ _ hk => hk.mono hb)

/-! ## The evaluator

Everything is shown for a given way to call methods; `quiet_invokeWithin` closes the circle by
induction on the levels of calls. -/

section Evaluator

variable (env : Env) {inv : Invoke}

/-- A call is quiet, of a native or of a method, if methods are. -/
theorem quiet_call (hinv : ∀ method values, Quiet (inv method values)) (name : String)
    (values : List Value) : Quiet (call inv name values) := by
  refine (quiet_findFunction name values.length).bind fun callable => ?_
  cases callable with
  | native native => exact quiet_ofNative _
  | method method => exact hinv method values

/-- If calls are quiet, then so is all that expressions are made of. -/
theorem exprLockstep_quiet (hinv : ∀ method values, Quiet (inv method values)) :
    ExprLockstep env env inv inv fun x _ => Quiet x where
  objects_eq := rfl
  pure := quiet_pure
  fail := quiet_fail
  bind := Quiet.bind
  readVariable := quiet_readVariable
  readField := fun _ _ => quiet_ofNative _
  call := quiet_call hinv
  method := fun _ _ => quiet_ofNative _

/-- If calls are quiet, then all that statements are made of is tidy. -/
theorem lockstep_tidy (hinv : ∀ method values, Quiet (inv method values)) :
    Lockstep env env inv inv True fun x _ => Tidy x where
  objects_eq := rfl
  pure := tidy_pure
  fail := fun e => (quiet_fail e).tidy
  bind := Tidy.bind
  readVariable := fun name => (quiet_readVariable name).tidy
  readField := fun _ _ => (quiet_ofNative _).tidy
  call := fun name values => (quiet_call hinv name values).tidy
  method := fun _ _ => (quiet_ofNative _).tidy
  writeVariable := tidy_writeVariable
  defineVariable := tidy_defineVariable
  inBlock := Tidy.inBlock
  writeField := fun _ _ _ => (quiet_ofNative _).tidy
  exhausted := fun _ => ⟨rfl, fun m b _ _ => .refl b m⟩

/-- An expression changes nothing but the values of globals. -/
theorem quiet_evaluate (hinv : ∀ method values, Quiet (inv method values)) (e : Expr) :
    Quiet (evaluate env inv e) :=
  (exprLockstep_quiet env hinv).evaluate e

/-- The expressions of a list change nothing but the values of globals. -/
theorem quiet_evaluateAll (hinv : ∀ method values, Quiet (inv method values))
    (items : List Expr) : Quiet (evaluateAll env inv items) :=
  (exprLockstep_quiet env hinv).evaluateAll items

/-- A statement changes no frame below the one of its call. -/
theorem tidy_statement (hinv : ∀ method values, Quiet (inv method values)) (s : Statement) :
    Tidy (statement env inv s) :=
  (lockstep_tidy env hinv).statement s (.inl trivial)

/-- The statements of a body change no frame below the one of their call. -/
theorem tidy_statements (hinv : ∀ method values, Quiet (inv method values))
    (body : List Statement) : Tidy (statements env inv body) :=
  (lockstep_tidy env hinv).statements body (.inl trivial)

include env in
/-- The definition of parameters changes no frame below the one of the call. -/
theorem tidy_defineParameters (hinv : ∀ method values, Quiet (inv method values))
    (parameters : List Parameter) (values : List Value) :
    Tidy (defineParameters parameters values) :=
  (lockstep_tidy env hinv).defineParameters parameters values

/-- All that a call runs in its frame changes no frame below that one. -/
theorem tidy_methodBody (hinv : ∀ method values, Quiet (inv method values)) (method : Method)
    (values : List Value) : Tidy (methodBody env inv method values) :=
  (lockstep_tidy env hinv).methodBody method values (.inl trivial)

/-- A call changes nothing but the values of globals, however deep the calls in it go. -/
theorem quiet_invokeWithin (n : Nat) (method : Method) (values : List Value) :
    Quiet (invokeWithin env n method values) := by
  induction n generalizing method values with
  | zero => exact quiet_fail _
  | succ n ih =>
    -- Whatever the body calls has one level less to go.
    have hbody := tidy_methodBody env ih method values
    rw [invokeWithin]
    refine Quiet.bind (fun m _ b _ => .refl b m) fun m => ?_
    exact Quiet.ite (quiet_fail _) (hbody.call.bind fun completion => quiet_pure _)

/-- A call in a run, which may go as deep as any, changes nothing but the values of globals. -/
theorem quiet_invoke (method : Method) (values : List Value) :
    Quiet (Exec.invoke env method values) :=
  quiet_invokeWithin env (maxCalls + 1) method values

end Evaluator

end Exec

end LetLang
