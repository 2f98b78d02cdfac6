import LetLang.Machine.Run

/-! # Two runs in lockstep

Two runs of one program may differ in how methods are called, in how many rounds a `WHILE` is
given and in the machines that they start from.  A relation between computations that the
steps of the machine respect is respected by every expression, statement and program.  What is
true of a single run is such a relation too, between the run and itself.

* `Exec.ExprLockstep`        what is asked of the relation where an expression is evaluated,
  one field per step of the machine
* `Exec.Lockstep`            the same with the steps of statements
* `ExprLockstep.evaluate`, `Lockstep.statements`, `Lockstep.executeVia`
  it holds between the two runs of an expression, a body, a program
-/

namespace LetLang

/-! ## Programs without `WHILE` -/

mutual

/-- Whether there is no `WHILE` in a statement. -/
def Statement.whileFree : Statement → Bool
  | .ifElse _ thenBody elseBody => bodyWhileFree thenBody && bodyWhileFree elseBody
  | .forIn _ _ body => bodyWhileFree body
  | .whileDo _ _ => false
  | _ => true

/-- Whether there is no `WHILE` in any of the statements. -/
def bodyWhileFree : List Statement → Bool
  | [] => true
  | s :: rest => s.whileFree && bodyWhileFree rest

end

/-- Whether there is no `WHILE` in a method. -/
def Method.whileFree (method : Method) : Bool := bodyWhileFree method.body

/-- Whether there is no `WHILE` in a program. -/
def Source.whileFree (source : Source) : Bool := source.methods.all Method.whileFree

namespace Exec

/-! ## The relation -/

/-- Run a program whose methods are called with `inv`. -/
def executeVia (env : Env) (inv : Invoke) (source : Source) : Exec Int := do
  source.fields.forM (declare env inv)
  source.methods.forM defineMethod
  match ← call inv "main" [] with
  | .integer n => return n
  | v => fail (.nonIntegerResult v.typeName)

/-- A run calls methods with all levels of calls that there are. -/
theorem execute_eq_executeVia (env : Env) (source : Source) :
    execute env source = executeVia env (invoke env) source := rfl

/-- What a call runs in a frame of its own: the parameters are defined, then the body follows. -/
def methodBody (env : Env) (inv : Invoke) (method : Method) (values : List Value) :
    Exec Completion := do
  defineParameters method.parameters values
  statements env inv method.body

/-- With no call left, a call fails whatever its number of levels is. -/
theorem invokeWithin_of_maxCalls_le (env : Env) (n : Nat) (method : Method) (values : List Value)
    {m : Machine} (h : maxCalls ≤ m.calls) :
    invokeWithin env n method values m = fail (.callDepthExceeded method.name) m := by
  cases n with
  | zero => rfl
  | succ n =>
    show (if maxCalls ≤ m.calls then fail (.callDepthExceeded method.name) else _ :
      Exec Value) m = _
    rw [if_pos h]

/-- With a call left, the body of the method runs as one more active call. -/
theorem invokeWithin_of_lt_maxCalls (env : Env) (n : Nat) (method : Method) (values : List Value)
    {m : Machine} (h : m.calls < maxCalls) :
    invokeWithin env (n + 1) method values m =
      (do
        let completion ← counted <| inScope Scopes.global <|
          methodBody env (invokeWithin env n) method values
        return completion.value : Exec Value) m := by
  show (if maxCalls ≤ m.calls then fail (.callDepthExceeded method.name) else _ : Exec Value) m = _
  rw [if_neg (Nat.not_le.mpr h)]
  rfl

/-- The steps of which the evaluation of an expression is made respect the relation `rel` between
    a computation of the first run and its counterpart in the second one. -/
structure ExprLockstep (env env' : Env) (inv inv' : Invoke)
    (rel : ∀ {α : Type}, Exec α → Exec α → Prop) : Prop where
  objects_eq : env'.objects = env.objects
  pure : ∀ {α : Type} (a : α), rel (Pure.pure a) (Pure.pure a)
  fail : ∀ {α : Type} (e : RuntimeError), rel (fail e : Exec α) (fail e)
  bind : ∀ {α β : Type} {x y : Exec α} {f g : α → Exec β},
    rel x y → (∀ a, rel (f a) (g a)) → rel (x >>= f) (y >>= g)
  readVariable : ∀ name, rel (readVariable name) (readVariable name)
  readField : ∀ receiver name,
    rel (ofNative (NativeM.readField receiver name)) (ofNative (NativeM.readField receiver name))
  call : ∀ name values, rel (call inv name values) (call inv' name values)
  method : ∀ {receiver : Value} {name : String} {arity : Nat} {native : Native},
    receiver.method env.objects name arity = .ok native → ∀ values,
      rel (ofNative (native.call values)) (ofNative (native.call values))

/-- All steps of the machine respect the relation.  Loops that may run out of rounds have to
    respect it only if `loops` holds. -/
structure Lockstep (env env' : Env) (inv inv' : Invoke) (loops : Prop)
    (rel : ∀ {α : Type}, Exec α → Exec α → Prop) : Prop extends
    ExprLockstep env env' inv inv' rel where
  writeVariable : ∀ name value, rel (writeVariable name value) (writeVariable name value)
  defineVariable : ∀ name value, rel (defineVariable name value) (defineVariable name value)
  inBlock : ∀ {α : Type} {x y : Exec α}, rel x y → rel (inBlock x) (inBlock y)
  writeField : ∀ receiver name value,
    rel (ofNative (NativeM.writeField receiver name value))
      (ofNative (NativeM.writeField receiver name value))
  exhausted : loops → env'.rounds = env.rounds ∧
    ∀ {α : Type}, rel (throw .exhausted : Exec α) (throw .exhausted)

namespace ExprLockstep

variable {env env' : Env} {inv inv' : Invoke} {rel : ∀ {α : Type}, Exec α → Exec α → Prop}

/-- A check that passes gives a value, and one that fails fails on both sides. -/
theorem ofExcept {α : Type} (L : ExprLockstep env env' inv inv' rel)
    (x : Except RuntimeError α) : rel (ofExcept x) (ofExcept x) := by
  cases x with
  | ok a => exact L.pure a
  | error e => exact L.fail e

/-- Both runs take the same branch. -/
theorem ite {α : Type} {p : Prop} [Decidable p] {x x' y y' : Exec α} (hx : rel x x')
    (hy : rel y y') : rel (if p then x else y) (if p then x' else y') := by
  by_cases hp : p
  · rwa [if_pos hp, if_pos hp]
  · rwa [if_neg hp, if_neg hp]

/-! ## Expressions -/

mutual

/-- The two runs of an expression are related. -/
theorem evaluate (L : ExprLockstep env env' inv inv' rel) : ∀ e : Expr,
    rel (Exec.evaluate env inv e) (Exec.evaluate env' inv' e)
  | .literal _ value => by
    simp only [Exec.evaluate]
    exact L.pure _
  | .group _ inner => by
    simp only [Exec.evaluate]
    exact L.evaluate inner
  | .binary _ operator left right => by
    have hright := L.evaluate right
    simp only [Exec.evaluate]
    refine L.bind (L.evaluate left) fun a => ?_
    cases operator
    case and =>
      refine L.bind (L.ofExcept _) fun b => ite (L.bind hright fun c => ?_) (L.pure _)
      exact L.bind (L.ofExcept _) fun d => L.pure _
    case or =>
      refine L.bind (L.ofExcept _) fun b => ite (L.pure _) (L.bind hright fun c => ?_)
      exact L.bind (L.ofExcept _) fun d => L.pure _
    all_goals exact L.bind hright fun c => L.ofExcept _
  | .var _ name => by
    simp only [Exec.evaluate]
    exact L.readVariable name
  | .field _ receiver name => by
    simp only [Exec.evaluate]
    exact L.bind (L.evaluate receiver) fun v => L.readField v name
  | .call _ name items => by
    simp only [Exec.evaluate]
    exact L.bind (L.evaluateAll items) fun values => L.call name values
  | .invoke _ receiver name items => by
    simp only [Exec.evaluate, L.objects_eq]
    refine L.bind (L.evaluate receiver) fun v => ?_
    -- The method is looked up in the same object types, so both runs find the same native.
    cases hm : v.method env.objects name (items.length + 1) with
    | error e => exact L.fail e
    | ok native =>
      show rel (Exec.evaluateAll env inv items >>= fun values => ofNative (native.call _))
        (Exec.evaluateAll env' inv' items >>= fun values => ofNative (native.call _))
      exact L.bind (L.evaluateAll items) fun values => L.method hm (v :: values)

/-- The two runs of a list of expressions are related. -/
theorem evaluateAll (L : ExprLockstep env env' inv inv' rel) : ∀ items : List Expr,
    rel (Exec.evaluateAll env inv items) (Exec.evaluateAll env' inv' items)
  | [] => by
    simp only [Exec.evaluateAll]
    exact L.pure []
  | e :: rest => by
    simp only [Exec.evaluateAll]
    refine L.bind (L.evaluate e) fun v => ?_
    exact L.bind (L.evaluateAll rest) fun values => L.pure _

end

end ExprLockstep

/-! ## Statements -/

namespace Lockstep

variable {env env' : Env} {inv inv' : Invoke} {loops : Prop}
  {rel : ∀ {α : Type}, Exec α → Exec α → Prop}

/-- Going through a list keeps to the relation if every item does. -/
theorem forM {α : Type} (L : Lockstep env env' inv inv' loops rel) {f g : α → Exec Unit}
    {l : List α} (h : ∀ a ∈ l, rel (f a) (g a)) : rel (l.forM f) (l.forM g) := by
  induction l with
  | nil => exact L.pure ()
  | cons a l ih =>
    exact L.bind (h a List.mem_cons_self) fun _ =>
      ih fun b hb => h b (List.mem_cons_of_mem a hb)

/-- A declaration evaluates its initial value and defines a variable. -/
theorem declare (L : Lockstep env env' inv inv' loops rel) (d : Declaration) :
    rel (Exec.declare env inv d) (Exec.declare env' inv' d) := by
  unfold Exec.declare
  cases d.initializer with
  | none => exact L.defineVariable _ _
  | some e => exact L.bind (L.evaluate e) fun v => L.defineVariable _ v

/-- An assignment evaluates, and then writes a variable or a field. -/
theorem assign (L : Lockstep env env' inv inv' loops rel) (target value : Expr) :
    rel (Exec.assign env inv target value) (Exec.assign env' inv' target value) := by
  cases target with
  | var _ name =>
    simp only [Exec.assign]
    exact L.bind (L.evaluate value) fun v => L.writeVariable name v
  | field _ receiver name =>
    simp only [Exec.assign]
    refine L.bind (L.evaluate receiver) fun object => ?_
    exact L.bind (L.evaluate value) fun v => L.writeField object name v
  | _ =>
    simp only [Exec.assign]
    exact L.fail _

/-- A `FOR` goes through the same rounds on both sides. -/
theorem forRounds (L : Lockstep env env' inv inv' loops rel) {body body' : Int → Exec Completion}
    (hbody : ∀ k, rel (body k) (body' k)) (n : Nat) (k : Int) :
    rel (Exec.forRounds body k n) (Exec.forRounds body' k n) := by
  induction n generalizing k with
  | zero => exact L.pure _
  | succ n ih =>
    refine L.bind (hbody k) fun completion => ?_
    cases completion with
    | normal => exact ih (k + 1)
    | returned v => exact L.pure _

/-- A `WHILE` stays in step where loops are asked for. -/
theorem whileRounds (L : Lockstep env env' inv inv' loops rel) (hloops : loops)
    {test test' : Exec Bool} {body body' : Exec Completion} (htest : rel test test')
    (hbody : rel body body') (n : Nat) :
    rel (Exec.whileRounds test body n) (Exec.whileRounds test' body' n) := by
  induction n with
  | zero => exact (L.exhausted hloops).2
  | succ n ih =>
    refine L.bind htest fun b => ExprLockstep.ite (L.bind hbody fun completion => ?_) (L.pure _)
    cases completion with
    | normal => exact ih
    | returned v => exact L.pure _

mutual

/-- The two runs of a statement are related, if loops are or the statement has none that may
    run out of rounds. -/
theorem statement (L : Lockstep env env' inv inv' loops rel) : ∀ s : Statement,
    loops ∨ s.whileFree = true → rel (Exec.statement env inv s) (Exec.statement env' inv' s)
  | .expression value, _ => by
    simp only [Exec.statement]
    have hvalue : rel (discard (Exec.evaluate env inv value))
        (discard (Exec.evaluate env' inv' value)) :=
      L.bind (L.evaluate value) fun _ => L.pure ()
    exact L.bind hvalue fun _ => L.pure _
  | .declare d, _ => by
    simp only [Exec.statement]
    exact L.bind (L.declare d) fun _ => L.pure _
  | .assign target value, _ => by
    simp only [Exec.statement]
    exact L.bind (L.assign target value) fun _ => L.pure _
  | .ifElse condition thenBody elseBody, h => by
    -- Both branches are free of `WHILE` if the statement is.
    simp only [Statement.whileFree, Bool.and_eq_true] at h
    have hthen := L.statements thenBody (h.imp_right And.left)
    have helse := L.statements elseBody (h.imp_right And.right)
    simp only [Exec.statement]
    refine L.bind (L.evaluate condition) fun v => L.bind (L.ofExcept _) fun b => ?_
    exact ExprLockstep.ite (L.inBlock hthen) (L.inBlock helse)
  | .forIn name iterable body, h => by
    simp only [Statement.whileFree] at h
    have hbody := L.statements body h
    simp only [Exec.statement]
    refine L.bind (L.evaluate iterable) fun v => ?_
    cases v.elements? with
    | none => exact L.fail _
    | some range =>
      refine L.forRounds (fun k => L.inBlock ?_) range.2 range.1
      exact L.bind (L.defineVariable _ _) fun _ => hbody
  | .whileDo condition body, h => by
    -- A `WHILE` is only met where loops are asked for, and there both sides have as many rounds.
    simp only [Statement.whileFree, Bool.false_eq_true, or_false] at h
    simp only [Exec.statement, (L.exhausted h).1]
    refine L.whileRounds h ?_ (L.inBlock (L.statements body (.inl h))) _
    exact L.bind (L.evaluate condition) fun v => L.ofExcept _
  | .returns value, _ => by
    simp only [Exec.statement]
    exact L.bind (L.evaluate value) fun v => L.pure _

/-- The two runs of a body are related. -/
theorem statements (L : Lockstep env env' inv inv' loops rel) : ∀ body : List Statement,
    loops ∨ bodyWhileFree body = true →
      rel (Exec.statements env inv body) (Exec.statements env' inv' body)
  | [], _ => by
    simp only [Exec.statements]
    exact L.pure _
  | s :: rest, h => by
    simp only [bodyWhileFree, Bool.and_eq_true] at h
    have hs := L.statement s (h.imp_right And.left)
    have hrest := L.statements rest (h.imp_right And.right)
    simp only [Exec.statements]
    refine L.bind hs fun completion => ?_
    -- A statement that returns leaves the rest out in both runs.
    cases completion with
    | normal => exact hrest
    | returned v => exact L.pure _

end

/-! ## Calls and programs -/

/-- The two runs define the parameters of a method alike. -/
theorem defineParameters (L : Lockstep env env' inv inv' loops rel) :
    ∀ (parameters : List Parameter) (values : List Value),
      rel (Exec.defineParameters parameters values) (Exec.defineParameters parameters values)
  | _ :: ps, _ :: vs => L.bind (L.defineVariable _ _) fun _ => L.defineParameters ps vs
  | [], _ => L.pure ()
  | _ :: _, [] => L.pure ()

/-- The two runs of what a call runs are related. -/
theorem methodBody (L : Lockstep env env' inv inv' loops rel) (method : Method)
    (values : List Value) (h : loops ∨ method.whileFree = true) :
    rel (Exec.methodBody env inv method values) (Exec.methodBody env' inv' method values) :=
  L.bind (L.defineParameters _ _) fun _ => L.statements method.body h

/-- The two runs of a program are related, if defining its methods is. -/
theorem executeVia (L : Lockstep env env' inv inv' loops rel) (source : Source)
    (hmethods : ∀ method ∈ source.methods, rel (defineMethod method) (defineMethod method)) :
    rel (Exec.executeVia env inv source) (Exec.executeVia env' inv' source) := by
  unfold Exec.executeVia
  refine L.bind (L.forM fun d _ => L.declare d) fun _ => ?_
  refine L.bind (L.forM hmethods) fun _ => L.bind (L.call "main" []) fun v => ?_
  cases v with
  | integer n => exact L.pure n
  | _ => exact L.fail _

end Lockstep

end Exec

end LetLang
