import LetLang.Pipeline
import LetLang.Proofs.Restoration

/-! # What happens within a run

A run is made of tasks: expressions to evaluate, functions to call, statements to run.
`Enters env a a'` says that the task of `a`, started in its state, comes to start the task
of `a'` in the state of `a'`; `Reached env source start a` says that the run of a program
from the state `start` comes to `a`.  What holds of every reached activation holds at every
point of every run, also of one that fails or never ends.

`Session.Reachable s` says that `s` is what is left after any programs were run one after
another, and `session_restores_stack` that this is nothing but the global frame. -/

namespace LetLang

open Scopes

/-! ## Tasks -/

/-- A piece of work of the machine. -/
inductive Task where
  | evaluate (e : Expr)
  | evaluateAll (items : List Expr)
  | call (name : String) (values : List Value)
  | declare (d : Declaration)
  | assign (target value : Expr)
  | statement (s : Statement)
  | statements (body : List Statement)
  /-- Statements in a block of their own. -/
  | block (body : List Statement)
  /-- One round of a `FOR`, in a block of its own. -/
  | round (name : String) (body : List Statement) (k : Int)
  /-- The rounds of a `FOR` for `n` integers from `k` on. -/
  | rounds (name : String) (body : List Statement) (k : Int) (n : Nat)
  /-- At most `n` rounds of a `WHILE`. -/
  | loop (condition : Expr) (body : List Statement) (n : Nat)

/-- A task, the state in which it starts, and how many levels of calls are left for it. -/
structure Activation where
  level : Nat
  task : Task
  machine : Machine

namespace Exec

/-- Run the round of a `FOR` for the integer `k`. -/
def round (env : Env) (invoke : Invoke) (name : String) (body : List Statement) (k : Int) :
    Exec Completion :=
  inBlock do
    defineVariable name (.integer k)
    statements env invoke body

/-- Evaluate the condition of a `WHILE`. -/
def test (env : Env) (invoke : Invoke) (condition : Expr) : Exec Bool := do
  let v ← evaluate env invoke condition
  ofExcept v.toBool

end Exec

open Exec

/-- Whether the right operand is evaluated when the left one is `a`. -/
def Operator.demandsRight (operator : Operator) (a : Value) : Prop :=
  match operator with
  | .and => a = .boolean true
  | .or => a = .boolean false
  | _ => True

/-- The first activation starts the second one. -/
inductive Enters (env : Env) : Activation → Activation → Prop where
  | group {n m id inner} :
    Enters env ⟨n, .evaluate (.group id inner), m⟩ ⟨n, .evaluate inner, m⟩
  | left {n m id operator left right} :
    Enters env ⟨n, .evaluate (.binary id operator left right), m⟩ ⟨n, .evaluate left, m⟩
  | right {n m id operator left right a m'} :
    evaluate env (invokeWithin env n) left m = .ok a m' → operator.demandsRight a →
    Enters env ⟨n, .evaluate (.binary id operator left right), m⟩ ⟨n, .evaluate right, m'⟩
  | fieldReceiver {n m id receiver name} :
    Enters env ⟨n, .evaluate (.field id receiver name), m⟩ ⟨n, .evaluate receiver, m⟩
  | callArguments {n m id name items} :
    Enters env ⟨n, .evaluate (.call id name items), m⟩ ⟨n, .evaluateAll items, m⟩
  | callFunction {n m id name items values m'} :
    evaluateAll env (invokeWithin env n) items m = .ok values m' →
    Enters env ⟨n, .evaluate (.call id name items), m⟩ ⟨n, .call name values, m'⟩
  | invokeReceiver {n m id receiver name items} :
    Enters env ⟨n, .evaluate (.invoke id receiver name items), m⟩ ⟨n, .evaluate receiver, m⟩
  | invokeArguments {n m id receiver name items v m' native} :
    evaluate env (invokeWithin env n) receiver m = .ok v m' →
    v.method env.objects name (items.length + 1) = .ok native →
    Enters env ⟨n, .evaluate (.invoke id receiver name items), m⟩ ⟨n, .evaluateAll items, m'⟩
  | head {n m e rest} :
    Enters env ⟨n, .evaluateAll (e :: rest), m⟩ ⟨n, .evaluate e, m⟩
  | tail {n m e rest v m'} :
    evaluate env (invokeWithin env n) e m = .ok v m' →
    Enters env ⟨n, .evaluateAll (e :: rest), m⟩ ⟨n, .evaluateAll rest, m'⟩
  | body {n m name values method m'} :
    m.scopes.function? name values.length = some (.method method) → m.calls < maxCalls →
    defineParameters method.parameters values
      { m with calls := m.calls + 1, scopes := m.scopes.pushChildOf global } = .ok () m' →
    Enters env ⟨n + 1, .call name values, m⟩ ⟨n, .statements method.body, m'⟩
  | initializer {n m id name typeName e} :
    Enters env ⟨n, .declare ⟨id, name, typeName, some e⟩, m⟩ ⟨n, .evaluate e, m⟩
  | assigned {n m id name value} :
    Enters env ⟨n, .assign (.var id name) value, m⟩ ⟨n, .evaluate value, m⟩
  | assignReceiver {n m id receiver name value} :
    Enters env ⟨n, .assign (.field id receiver name) value, m⟩ ⟨n, .evaluate receiver, m⟩
  | assignedField {n m id receiver name value object m'} :
    evaluate env (invokeWithin env n) receiver m = .ok object m' →
    Enters env ⟨n, .assign (.field id receiver name) value, m⟩ ⟨n, .evaluate value, m'⟩
  | expression {n m value} :
    Enters env ⟨n, .statement (.expression value), m⟩ ⟨n, .evaluate value, m⟩
  | declare {n m d} : Enters env ⟨n, .statement (.declare d), m⟩ ⟨n, .declare d, m⟩
  | assign {n m target value} :
    Enters env ⟨n, .statement (.assign target value), m⟩ ⟨n, .assign target value, m⟩
  | ifCondition {n m condition thenBody elseBody} :
    Enters env ⟨n, .statement (.ifElse condition thenBody elseBody), m⟩ ⟨n, .evaluate condition, m⟩
  | ifBody {n m condition thenBody elseBody holds m'} :
    test env (invokeWithin env n) condition m = .ok holds m' →
    Enters env ⟨n, .statement (.ifElse condition thenBody elseBody), m⟩
      ⟨n, .block (if holds then thenBody else elseBody), m'⟩
  | forIterable {n m name iterable body} :
    Enters env ⟨n, .statement (.forIn name iterable body), m⟩ ⟨n, .evaluate iterable, m⟩
  | forRounds {n m name iterable body v m' start count} :
    evaluate env (invokeWithin env n) iterable m = .ok v m' → v.elements? = some (start, count) →
    Enters env ⟨n, .statement (.forIn name iterable body), m⟩
      ⟨n, .rounds name body start count, m'⟩
  | whileLoop {n m condition body} :
    Enters env ⟨n, .statement (.whileDo condition body), m⟩ ⟨n, .loop condition body env.rounds, m⟩
  | returned {n m value} :
    Enters env ⟨n, .statement (.returns value), m⟩ ⟨n, .evaluate value, m⟩
  | first {n m s rest} : Enters env ⟨n, .statements (s :: rest), m⟩ ⟨n, .statement s, m⟩
  | next {n m s rest m'} :
    statement env (invokeWithin env n) s m = .ok .normal m' →
    Enters env ⟨n, .statements (s :: rest), m⟩ ⟨n, .statements rest, m'⟩
  | blockBody {n m body} :
    Enters env ⟨n, .block body, m⟩ ⟨n, .statements body, { m with scopes := m.scopes.push }⟩
  | roundBody {n m name body k m'} :
    defineVariable name (.integer k) { m with scopes := m.scopes.push } = .ok () m' →
    Enters env ⟨n, .round name body k, m⟩ ⟨n, .statements body, m'⟩
  | firstRound {n m name body k count} :
    Enters env ⟨n, .rounds name body k (count + 1), m⟩ ⟨n, .round name body k, m⟩
  | nextRound {n m name body k count m'} :
    round env (invokeWithin env n) name body k m = .ok .normal m' →
    Enters env ⟨n, .rounds name body k (count + 1), m⟩ ⟨n, .rounds name body (k + 1) count, m'⟩
  | loopCondition {n m condition body count} :
    Enters env ⟨n, .loop condition body (count + 1), m⟩ ⟨n, .evaluate condition, m⟩
  | loopBody {n m condition body count m'} :
    test env (invokeWithin env n) condition m = .ok true m' →
    Enters env ⟨n, .loop condition body (count + 1), m⟩ ⟨n, .block body, m'⟩
  | loopNext {n m condition body count m' m''} :
    test env (invokeWithin env n) condition m = .ok true m' →
    inBlock (statements env (invokeWithin env n) body) m' = .ok .normal m'' →
    Enters env ⟨n, .loop condition body (count + 1), m⟩ ⟨n, .loop condition body count, m''⟩

/-- The run of a program from the state `start` comes to the activation: it evaluates the
    globals in order, and calls `main` when the methods are bound. -/
inductive Reached (env : Env) (source : Source) (start : Machine) : Activation → Prop where
  | field {before d after m} :
    source.fields = before ++ d :: after →
    before.forM (declare env (invoke env)) start = .ok () m →
    Reached env source start ⟨maxCalls + 1, .declare d, m⟩
  | main {m m'} :
    source.fields.forM (declare env (invoke env)) start = .ok () m →
    source.methods.forM defineMethod m = .ok () m' →
    Reached env source start ⟨maxCalls + 1, .call "main" [], m'⟩
  | step {a a'} : Reached env source start a → Enters env a a' → Reached env source start a'

/-! ## The stack within a run -/

/-- Only the global frame holds functions. -/
def Scopes.FunctionsGlobal {V F : Type} (s : Scopes V F) : Prop :=
  ∀ i f, 0 < i → s.frames[i]? = some f → f.functions = .empty

/-- Functions stay where they are as long as the shape of the stack does. -/
theorem Scopes.SameShape.functionsGlobal {V F : Type} {s s' : Scopes V F} (h : SameShape s s')
    (hs : s.FunctionsGlobal) : s'.FunctionsGlobal := by
  intro i f' hi hf'
  have hsk := h.skeleton i
  rw [hf', Option.map_some] at hsk
  obtain ⟨f, hf, heq⟩ := Option.map_eq_some_iff.mp hsk.symm
  simp only [Frame.skeleton, Prod.mk.injEq] at heq
  exact heq.2.2.symm.trans (hs i f hi hf)

/-- A new frame has no functions. -/
theorem Scopes.FunctionsGlobal.pushChildOf {V F : Type} {s : Scopes V F}
    (hs : s.FunctionsGlobal) (parent : FrameId) : (s.pushChildOf parent).FunctionsGlobal := by
  intro i f hi hf
  -- The old frames are as before, and the new one has no functions.
  by_cases hlt : i < s.frames.size
  · rw [pushChildOf_frame_lt s parent hlt] at hf
    exact hs i f hi hf
  · by_cases heq : i = s.frames.size
    · subst heq
      rw [pushChildOf_frame_size] at hf
      cases hf
      rfl
    · have hsize : i < (s.pushChildOf parent).frames.size :=
        (Array.getElem?_eq_some_iff.mp hf).1
      rw [pushChildOf_size] at hsize
      omega

/-- Whether a task is only ever started inside a call. -/
def Task.inCall : Task → Bool
  | .evaluate _ | .evaluateAll _ | .call .. | .declare _ => false
  | _ => true

/-- What holds of the stack whenever a task is started: functions are in the global frame
    only, and a statement sees the frame of its call. -/
structure Activation.Ready (a : Activation) : Prop where
  rooted : a.machine.scopes.Rooted
  functionsGlobal : a.machine.scopes.FunctionsGlobal
  located : a.task.inCall = true → ∃ b k, Located b (k + 1) a.machine.scopes

namespace Activation.Ready

variable {n n' : Nat} {t t' : Task} {m m' : Machine}

/-- A task that is started after one that kept the shape of the stack. -/
theorem after (h : Ready ⟨n, t, m⟩) (hs : SameShape m.scopes m'.scopes)
    (ht : t'.inCall = true → t.inCall = true) : Ready ⟨n', t', m'⟩ where
  rooted := hs.rooted h.rooted
  functionsGlobal := hs.functionsGlobal h.functionsGlobal
  located := fun hc => by
    obtain ⟨b, k, hloc⟩ := h.located (ht hc)
    exact ⟨b, k, hs.located hloc⟩

/-- A task that is started at once. -/
theorem same (h : Ready ⟨n, t, m⟩) (ht : t'.inCall = true → t.inCall = true) :
    Ready ⟨n', t', m⟩ :=
  h.after (.refl _) ht

/-- A quiet computation keeps the shape of the stack. -/
theorem shape_of_quiet {α : Type} {x : Exec α} {a : α} (h : Ready ⟨n, t, m⟩) (hx : Quiet x)
    (hrun : x m = .ok a m') : SameShape m.scopes m'.scopes :=
  (Ends.of_ok (hx m h.rooted 0 (Nat.zero_le _)) hrun).shape

/-- A tidy computation keeps the shape of the stack inside a call. -/
theorem shape_of_tidy {α : Type} {x : Exec α} {a : α} (h : Ready ⟨n, t, m⟩)
    (ht : t.inCall = true) (hx : Tidy x) (hrun : x m = .ok a m') :
    SameShape m.scopes m'.scopes := by
  obtain ⟨b, k, hloc⟩ := h.located ht
  exact (Ends.of_ok (hx m b k hloc) hrun).shape

/-- A block inside a call. -/
theorem push (h : Ready ⟨n, t, m⟩) (ht : t.inCall = true) :
    Ready ⟨n', t', { m with scopes := m.scopes.push }⟩ := by
  obtain ⟨b, k, hloc⟩ := h.located ht
  exact ⟨hloc.push.rooted, h.functionsGlobal.pushChildOf _, fun _ => ⟨b, k + 1, hloc.push⟩⟩

end Activation.Ready

/-- A condition is evaluated like any expression. -/
theorem quiet_test (env : Env) {inv : Invoke} (hinv : ∀ method values, Quiet (inv method values))
    (condition : Expr) : Quiet (test env inv condition) :=
  (quiet_evaluate env hinv condition).bind fun _ => quiet_ofExcept _

/-- A round of a loop is a block with one more variable. -/
theorem tidy_round (env : Env) {inv : Invoke} (hinv : ∀ method values, Quiet (inv method values))
    (name : String) (body : List Statement) (k : Int) : Tidy (round env inv name body k) :=
  Tidy.inBlock ((tidy_defineVariable _ _).bind fun _ => tidy_statements env hinv body)

/-- Whatever a task starts finds the stack in order. -/
theorem Enters.ready {env : Env} {a a' : Activation} (h : Enters env a a') (ha : a.Ready) :
    a'.Ready := by
  have hinv := quiet_invokeWithin env
  cases h with
  -- Expressions keep the shape of the stack, so what follows them starts on the same one.
  | right hrun _ => exact ha.after (ha.shape_of_quiet (quiet_evaluate env (hinv _) _) hrun) id
  | callFunction hrun =>
    exact ha.after (ha.shape_of_quiet (quiet_evaluateAll env (hinv _) _) hrun) id
  | invokeArguments hrun _ =>
    exact ha.after (ha.shape_of_quiet (quiet_evaluate env (hinv _) _) hrun) id
  | tail hrun => exact ha.after (ha.shape_of_quiet (quiet_evaluate env (hinv _) _) hrun) id
  | @body n m name values method m' _ _ hrun =>
    -- The parameters are defined in the frame of the call.
    have hloc := ha.rooted.enterCall
    have hkeep := Ends.of_ok (tidy_defineParameters env (hinv n) method.parameters values
      { m with calls := m.calls + 1, scopes := m.scopes.pushChildOf global } _ 0 hloc) hrun
    have hloc' := hkeep.shape.located hloc
    exact ⟨hloc'.rooted, hkeep.shape.functionsGlobal (ha.functionsGlobal.pushChildOf _),
      fun _ => ⟨_, 0, hloc'⟩⟩
  | assignedField hrun =>
    exact ha.after (ha.shape_of_quiet (quiet_evaluate env (hinv _) _) hrun) (fun _ => rfl)
  | ifBody hrun =>
    exact ha.after (ha.shape_of_quiet (quiet_test env (hinv _) _) hrun) (fun _ => rfl)
  | forRounds hrun _ =>
    exact ha.after (ha.shape_of_quiet (quiet_evaluate env (hinv _) _) hrun) (fun _ => rfl)
  | next hrun =>
    exact ha.after (ha.shape_of_tidy rfl (tidy_statement env (hinv _) _) hrun) (fun _ => rfl)
  | blockBody => exact ha.push rfl
  | @roundBody n m _ body _ _ hrun =>
    -- The block is entered first, and the loop variable is defined in it.
    have hpush : Activation.Ready ⟨n, .statements body, { m with scopes := m.scopes.push }⟩ :=
      ha.push rfl
    exact hpush.after (hpush.shape_of_tidy rfl (tidy_defineVariable _ _) hrun) (fun _ => rfl)
  | nextRound hrun =>
    exact ha.after (ha.shape_of_tidy rfl (tidy_round env (hinv _) _ _ _) hrun) (fun _ => rfl)
  | loopBody hrun =>
    exact ha.after (ha.shape_of_quiet (quiet_test env (hinv _) _) hrun) (fun _ => rfl)
  | @loopNext n _ _ body _ m' _ htest hbody =>
    have hmid : Activation.Ready ⟨n, .block body, m'⟩ :=
      ha.after (ha.shape_of_quiet (quiet_test env (hinv _) _) htest) (fun _ => rfl)
    exact hmid.after (hmid.shape_of_tidy rfl (tidy_statements env (hinv _) _).inBlock hbody)
      (fun _ => rfl)
  | _ => exact ha.same (by simp [Task.inCall])

/-! ## Between runs -/

/-- No program is running: only the global frame is there, it is current, and no call is
    active. -/
structure Machine.Resting (m : Machine) : Prop where
  located : Located 1 0 m.scopes
  calls_eq : m.calls = 0

namespace Machine.Resting

variable {m m' : Machine}

/-- At rest there is one frame. -/
theorem size_eq (h : m.Resting) : m.scopes.depth = 1 := h.located.size_eq

/-- At rest the global frame is current. -/
theorem current_eq (h : m.Resting) : m.scopes.current = global := h.located.current_eq

/-- What leaves shape and calls as they are leaves the machine at rest. -/
theorem of_keeps {b : Nat} (h : m.Resting) (hk : m.Keeps b m') : m'.Resting :=
  ⟨hk.shape.located h.located, hk.calls.trans h.calls_eq⟩

/-- There is no other frame that could hold functions. -/
theorem functionsGlobal (h : m.Resting) : m.scopes.FunctionsGlobal := by
  intro i f hi hf
  have hsize := h.located.size_eq
  have hlt := (Array.getElem?_eq_some_iff.mp hf).1
  omega

/-- A quiet computation started at rest ends at rest. -/
private theorem ends_quiet {α : Type} {x : Exec α} (h : m.Resting) (hx : Quiet x) :
    Ends x m (fun _ m' => m'.Resting) (fun _ m' => m'.Resting) :=
  (hx m h.located.rooted 0 (Nat.zero_le _)).imp (fun _ _ _ hk => h.of_keeps hk)
    (fun _ _ _ hk => h.of_keeps hk)

/-- Defining a global leaves the machine at rest, also where the name is taken. -/
theorem ends_defineVariable (h : m.Resting) (name : String) (value : Value) :
    Ends (defineVariable name value) m (fun _ m' => m'.Resting) (fun _ m' => m'.Resting) := by
  rw [Exec.ends_defineVariable]
  cases hd : m.scopes.defineVariable name value with
  | error e => exact h
  | ok scopes =>
    obtain ⟨_, rfl⟩ := defineVariable_eq_ok_iff.mp hd
    exact ⟨(sameShape_store _ _ _ _).located h.located, h.calls_eq⟩

/-- A global declaration started at rest ends at rest. -/
theorem ends_declare (env : Env) (d : Declaration) (h : m.Resting) :
    Ends (declare env (invoke env) d) m (fun _ m' => m'.Resting) (fun _ m' => m'.Resting) := by
  unfold declare
  cases d.initializer with
  | none => exact h.ends_defineVariable _ _
  | some e =>
    have heval := h.ends_quiet (quiet_evaluate env (quiet_invoke env) e)
    rw [ends_bind]
    exact heval.mono (fun v m' _ h' => h'.ends_defineVariable _ _)

/-- Binding a method leaves the machine at rest, also where the key is taken. -/
theorem ends_defineMethod (method : Method) (h : m.Resting) :
    Ends (defineMethod method) m (fun _ m' => m'.Resting) (fun _ m' => m'.Resting) := by
  rw [defineMethod, ends_defineFunction]
  cases hd : m.scopes.defineFunction method.name method.parameters.length (.method method) with
  | error e => exact h
  | ok scopes =>
    obtain ⟨_, rfl⟩ := defineFunction_eq_ok_iff.mp hd
    exact ⟨h.located.redefineFunction _ _ _, h.calls_eq⟩

/-- However a run ends, the machine is at rest again. -/
private theorem ends_execute (env : Env) (source : Source) (h : m.Resting) :
    Ends (execute env source) m (fun _ m' => m'.Resting) (fun _ m' => m'.Resting) := by
  -- Globals, methods and the call of `main` leave the machine at rest one after the other.
  unfold execute
  refine (ends_forM (fun d _ _ h => ends_declare env d h) h).bind ?_
  intro _ m₁ _ h₁
  refine (ends_forM (fun method _ _ h => ends_defineMethod method h) h₁).bind ?_
  intro _ m₂ _ h₂
  refine (h₂.ends_quiet (quiet_call (quiet_invoke env) "main" [])).bind ?_
  intro v m₃ _ h₃
  cases v <;> exact h₃

end Machine.Resting

/-- Every activation of a run finds the stack in order. -/
theorem Reached.ready {env : Env} {source : Source} {start : Machine} {a : Activation}
    (h : Reached env source start a) (hstart : start.Resting) : a.Ready := by
  -- Induction over how the activation was reached: a run starts at rest, and `Enters.ready`
  -- is the step.
  induction h with
  -- Globals are evaluated at rest.
  | field _ hrun =>
    have hrest := (ends_forM (fun d _ _ h => Machine.Resting.ends_declare env d h)
      hstart).of_ok hrun
    exact ⟨hrest.located.rooted, hrest.functionsGlobal, fun hc => nomatch hc⟩
  -- So is the call of `main`, when the methods are bound.
  | main hfields hmethods =>
    have hrest := (ends_forM (fun d _ _ h => Machine.Resting.ends_declare env d h)
      hstart).of_ok hfields
    have hrest' := (ends_forM (fun method _ _ h => Machine.Resting.ends_defineMethod method h)
      hrest).of_ok hmethods
    exact ⟨hrest'.located.rooted, hrest'.functionsGlobal, fun hc => nomatch hc⟩
  | step _ hstep ih => exact hstep.ready ih

/-- What holds of a fresh stack and is kept when a native is bound holds of the scopes in which a
    program starts. -/
theorem of_nativeScopes {I : Scopes Value Callable → Prop} {natives : List Native}
    {s : Scopes Value Callable} (hnew : I Scopes.new)
    (hbind : ∀ native ∈ natives, ∀ s, I s →
      I (s.redefineFunction native.name native.signature.arity (.native native)))
    (h : nativeScopes natives = .ok s) : I s := by
  -- The natives are bound one after the other, so the scopes to begin with are generalized.
  unfold nativeScopes at h
  generalize Scopes.new = start at hnew h
  induction natives generalizing start with
  | nil =>
    cases h
    exact hnew
  | cons native rest ih =>
    rw [List.foldlM_cons] at h
    cases hd : start.defineFunction native.name native.signature.arity (.native native) with
    | error e => rw [hd] at h; exact nomatch h
    | ok next =>
      rw [hd] at h
      obtain ⟨_, rfl⟩ := defineFunction_eq_ok_iff.mp hd
      exact ih (fun other hother => hbind other (List.mem_cons_of_mem native hother)) _
        (hbind native List.mem_cons_self _ hnew) h

/-- The machine with the natives of a registry is at rest. -/
theorem Machine.resting_new {r : Registry} {world : World} {m : Machine}
    (h : Machine.new r world = .ok m) : m.Resting := by
  unfold Machine.new at h
  cases hs : nativeScopes r.functions with
  | error e => rw [hs] at h; exact nomatch h
  | ok scopes =>
    rw [hs] at h
    cases h
    -- Binding natives one by one leaves nothing but the global frame.
    exact ⟨of_nativeScopes located_new (fun _ _ _ h => h.redefineFunction _ _ _) hs, rfl⟩

/-! ## Sessions -/

/-- A session starts in the same way in every world. -/
theorem Session.start_eq (r : Registry) (world : World) :
    Session.start r world =
      match nativeScopes r.functions with
      | .ok scopes => .ok ⟨r, ⟨scopes, world, 0⟩⟩
      | .error e => .error (.scope e) := by
  unfold Session.start Machine.new
  cases nativeScopes r.functions <;> rfl

/-- The session is what a new one has become after any programs were run in it, whether
    they succeeded or failed, and its output was taken away any number of times. -/
inductive Session.Reachable : Session → Prop where
  | start {r world s} : Session.start r world = .ok s → Reachable s
  | execute {s rounds source result s'} :
    Reachable s → s.execute rounds source = some (result, s') → Reachable s'
  | drained {s} : Reachable s → Reachable s.drained

/-- How a run of the machine ends whose answer is the given one. -/
def answered (result : Except RuntimeError Int) (m : Machine) : EStateM.Result Halt Machine Int :=
  match result with
  | .ok n => .ok n m
  | .error e => .error (.error e) m

/-- The answer of a run and what has become of the session, in terms of the machine. -/
theorem Session.execute_eq_some_iff {s after : Session} {rounds : Nat} {source : Source}
    {result : Except RuntimeError Int} :
    s.execute rounds source = some (result, after) ↔
      Exec.execute ⟨s.registry.objects, rounds⟩ source s.machine = answered result after.machine ∧
        after.registry = s.registry := by
  obtain ⟨registry, machine⟩ := after
  unfold Session.execute
  -- An answer is read off the end of the run, and a run without an end has none.
  constructor
  · intro h
    split at h <;> rename_i hrun
    · cases h
      exact ⟨hrun, rfl⟩
    · cases h
      exact ⟨hrun, rfl⟩
    · exact nomatch h
  · rintro ⟨hrun, rfl⟩
    rw [hrun]
    cases result <;> rfl

/-- Between two runs the machine is at rest. -/
theorem Session.Reachable.resting {s : Session} (h : s.Reachable) : s.machine.Resting := by
  induction h with
  -- A session starts with the machine that was made for it.
  | @start r world s hstart =>
    unfold Session.start at hstart
    cases hm : Machine.new r world with
    | error e => rw [hm] at hstart; exact nomatch hstart
    | ok m =>
      rw [hm] at hstart
      cases hstart
      exact Machine.resting_new hm
  | @execute s rounds source result s' _ hrun ih =>
    have hends := ih.ends_execute ⟨s.registry.objects, rounds⟩ source
    unfold Session.execute at hrun
    unfold Ends at hends
    -- Both answers leave a machine at rest, and a run without an answer is no step of the session.
    split at hrun <;> rename_i hx <;> rw [hx] at hends
    · cases hrun
      exact hends
    · cases hrun
      exact hends
    · exact nomatch hrun
  | drained _ ih => exact ⟨ih.located, ih.calls_eq⟩

/-- Every way out of a computation restores the stack, in every run of any program in any
    session.  Expressions and calls keep every frame but the values of globals; blocks and
    statements keep the shape of the stack; functions are never anywhere but in the global
    frame.  Between runs nothing but the global frame is left. -/
theorem session_restores_stack {s : Session} (h : s.Reachable) :
    s.machine.scopes.depth = 1 ∧ s.machine.scopes.current = global ∧ s.machine.calls = 0 ∧
    ∀ (env : Env) (source : Source) (n : Nat) (task : Task) (m : Machine),
      Reached env source s.machine ⟨n, task, m⟩ →
        m.scopes.FunctionsGlobal ∧
        match task with
        | .evaluate e => (evaluate env (invokeWithin env n) e).Restores m.scopes.depth m
        | .call name values =>
          (Exec.call (invokeWithin env n) name values).Restores m.scopes.depth m
        | .block body => (inBlock (statements env (invokeWithin env n) body)).Restores 0 m
        | .statements body => (statements env (invokeWithin env n) body).Restores 0 m
        | _ => True := by
  have hrest := h.resting
  refine ⟨hrest.size_eq, hrest.current_eq, hrest.calls_eq, ?_⟩
  intro env source n task m hreached
  have hready := hreached.ready hrest
  have hinv := quiet_invokeWithin env n
  refine ⟨hready.functionsGlobal, ?_⟩
  -- A tidy computation keeps the frames below its call, so it keeps the shape in particular.
  have htidy : ∀ {x : Exec Completion}, task.inCall = true → Tidy x → x.Restores 0 m := by
    intro x ht hx
    obtain ⟨b, k, hloc⟩ := hready.located ht
    exact (hx m b k hloc).imp (fun _ _ _ hk => hk.mono (Nat.zero_le b))
      (fun _ _ _ hk => hk.mono (Nat.zero_le b))
  cases task with
  | evaluate e => exact quiet_evaluate env hinv e m hready.rooted _ (Nat.le_refl _)
  | call name values => exact quiet_call hinv name values m hready.rooted _ (Nat.le_refl _)
  | block body => exact htidy rfl (tidy_statements env hinv body).inBlock
  | statements body => exact htidy rfl (tidy_statements env hinv body)
  | _ => trivial

/-- A program that divides by zero within a call. -/
def dividing : Source where
  fields := []
  methods := [⟨0, "main", [], none,
    [.returns (.binary 1 .divide (.literal 2 (.integer 1)) (.literal 3 (.integer 0)))]⟩]

/-- The division fails inside the frame of the call, which is there before and after it; after
    the run the frame is gone. -/
theorem dividing_restores_stack : ∃ s s' n e m, Session.start .withRange default = .ok s ∧
    s.execute 0 dividing = some (.error .divisionByZero, s') ∧
    Reached ⟨[], 0⟩ dividing s.machine ⟨n, .evaluate e, m⟩ ∧ m.scopes.depth = 2 ∧
    (evaluate ⟨[], 0⟩ (invokeWithin ⟨[], 0⟩ n) e).Restores 2 m ∧
    s'.machine.scopes.depth = 1 ∧ s'.machine.calls = 0 := by
  -- The division is evaluated in the scope of the body, one above the global frame.
  obtain ⟨s, s', n, e, m, hs, hrun, hreached, hsize⟩ :
      ∃ s s' n e m, Session.start .withRange default = .ok s ∧
        s.execute 0 dividing = some (.error .divisionByZero, s') ∧
        Reached ⟨[], 0⟩ dividing s.machine ⟨n, .evaluate e, m⟩ ∧ m.scopes.depth = 2 :=
    ⟨_, _, _, _, _, rfl, rfl,
      .step (.step (.step (.main rfl rfl) (.body rfl (by decide) rfl)) .first) .returned, rfl⟩
  have hstart := Session.Reachable.start hs
  obtain ⟨_, _, _, hinside⟩ := session_restores_stack hstart
  obtain ⟨hdepth, _, hcalls, _⟩ := session_restores_stack (hstart.execute hrun)
  have hrestores := (hinside _ _ _ _ _ hreached).2
  rw [hsize] at hrestores
  exact ⟨s, s', n, e, m, hs, hrun, hreached, hsize, hrestores, hdepth, hcalls⟩

end LetLang
