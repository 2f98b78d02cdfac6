import LetLang.Proofs.StackFunctions

/-! # Programs without `WHILE` terminate

Two numbers keep the evaluator structural: the rounds that a `WHILE` is given, and the levels
of calls inside one another.  The second one is never what stops a run, because `maxCalls`
active calls are an error of the program already.  The first one matters only to `WHILE`: the
rounds of `FOR` are fixed before its body runs for the first time.

So two runs of a program without `WHILE`, with any rounds and with more than `maxCalls` levels,
go the same way and come to an end.

* `Exec.Settle c`            two computations that agree and do not run out of rounds, from any
  machine with `c` active calls
* `settle_invokeWithin`      any two numbers of levels that exceed what is left of `maxCalls`
* `terminates_without_while` the result for sessions
-/

namespace LetLang

open Scopes Exec

/-- Whether a function is no method with a `WHILE` in it. -/
def Callable.whileFree : Callable → Bool
  | native _ => true
  | method m => m.whileFree

/-- There are `c` active calls, and no function has a `WHILE` in it. -/
structure Machine.WhileFree (c : Nat) (m : Machine) : Prop where
  calls_eq : m.calls = c
  functions : m.scopes.AllFunctions (·.whileFree = true)

namespace Machine.WhileFree

variable {c : Nat} {m : Machine}

/-- The world holds no methods. -/
private theorem withWorld (h : m.WhileFree c) (world : World) :
    { m with world := world }.WhileFree c :=
  ⟨h.calls_eq, h.functions⟩

/-- Variables hold no methods. -/
private theorem withStore (h : m.WhileFree c) (i : Nat) (name : String) (value : Value) :
    { m with scopes := m.scopes.store i name value }.WhileFree c :=
  ⟨h.calls_eq, h.functions.sameShape (sameShape_store _ _ _ _)⟩

/-- A new frame has none. -/
theorem pushChildOf (h : m.WhileFree c) (parent : FrameId) :
    { m with scopes := m.scopes.pushChildOf parent }.WhileFree c :=
  ⟨h.calls_eq, h.functions.pushChildOf parent⟩

/-- Taking a frame away takes away at most some. -/
theorem pop (h : m.WhileFree c) : { m with scopes := m.scopes.pop }.WhileFree c :=
  ⟨h.calls_eq, h.functions.pop⟩

end Machine.WhileFree

namespace Exec

variable {α β : Type}

/-- Started with `c` active calls, the two computations do the same.  They do not run out of
    rounds, and there are `c` active calls again when they end. -/
def Settle (c : Nat) (x y : Exec α) : Prop :=
  ∀ m : Machine, m.WhileFree c → y m = x m ∧
    Ends x m (fun _ m' => m'.WhileFree c) (fun halt m' => halt ≠ .exhausted ∧ m'.WhileFree c)

variable {c : Nat}

/-! ## Steps of the machine -/

private theorem settle_pure (a : α) : Settle c (pure a : Exec α) (pure a) := fun _ h => ⟨rfl, h⟩

/-- An error has nothing left to run. -/
private theorem settle_fail (e : RuntimeError) : Settle c (fail e : Exec α) (fail e) :=
  fun _ h => ⟨rfl, Halt.noConfusion, h⟩

/-- Sequences settle if their parts do. -/
theorem Settle.bind {x y : Exec α} {f g : α → Exec β} (hx : Settle c x y)
    (hf : ∀ a, Settle c (f a) (g a)) : Settle c (x >>= f) (y >>= g) := by
  intro m hm
  obtain ⟨hsame, hends⟩ := hx m hm
  constructor
  · show (y >>= g) m = (x >>= f) m
    simp only [Bind.bind, EStateM.bind, hsame]
    cases hrun : x m with
    | ok a m' => exact (hf a m' (hends.of_ok hrun)).1
    | error e m' => rfl
  · exact hends.bind fun a m' _ hm' => (hf a m' hm').2

/-- Natives take no rounds of the source. -/
private theorem settle_ofNative (x : NativeM α) : Settle c (ofNative x) (ofNative x) := by
  intro m hm
  refine ⟨rfl, ?_⟩
  rw [ends_ofNative, Ends]
  cases x m.world with
  | ok a w => exact hm.withWorld w
  | error e w => exact ⟨Halt.noConfusion, hm.withWorld w⟩

private theorem settle_readVariable (name : String) :
    Settle c (readVariable name) (readVariable name) := by
  intro m hm
  refine ⟨rfl, ?_⟩
  rw [ends_readVariable]
  cases m.scopes.lookup? name with
  | some v => exact hm
  | none => exact ⟨Halt.noConfusion, hm⟩

private theorem settle_writeVariable (name : String) (value : Value) :
    Settle c (writeVariable name value) (writeVariable name value) := by
  intro m hm
  refine ⟨rfl, ?_⟩
  rw [ends_writeVariable]
  cases m.scopes.search fun frame => frame.vars.get? name with
  | some found => exact hm.withStore found.1 name value
  | none => exact ⟨Halt.noConfusion, hm⟩

private theorem settle_defineVariable (name : String) (value : Value) :
    Settle c (defineVariable name value) (defineVariable name value) := by
  intro m hm
  refine ⟨rfl, ?_⟩
  rw [ends_defineVariable]
  cases hd : m.scopes.defineVariable name value with
  | ok scopes =>
    obtain ⟨_, rfl⟩ := defineVariable_eq_ok_iff.mp hd
    exact hm.withStore _ name value
  | error e => exact ⟨Halt.noConfusion, hm⟩

/-- A method without `WHILE` may be defined. -/
private theorem settle_defineMethod {method : Method} (hmethod : method.whileFree = true) :
    Settle c (defineMethod method) (defineMethod method) := by
  intro m hm
  refine ⟨rfl, ?_⟩
  rw [defineMethod, ends_defineFunction]
  cases hd : m.scopes.defineFunction method.name method.parameters.length (.method method) with
  | ok scopes =>
    obtain ⟨_, rfl⟩ := defineFunction_eq_ok_iff.mp hd
    exact ⟨hm.calls_eq, hm.functions.redefineFunction _ _ hmethod⟩
  | error e => exact ⟨Halt.noConfusion, hm⟩

/-- A scope is left whether its body settled with a value or an error. -/
theorem Settle.inScope {x y : Exec α} (h : Settle c x y) (parent : FrameId) :
    Settle c (inScope parent x) (inScope parent y) := by
  intro m hm
  obtain ⟨hsame, hends⟩ := h _ (hm.pushChildOf parent)
  constructor
  · simp only [Exec.inScope, hsame]
  · rw [ends_inScope]
    exact hends.imp (fun _ _ _ hm' => hm'.pop) (fun _ _ _ hm' => ⟨hm'.1, hm'.2.pop⟩)

theorem Settle.inBlock {x y : Exec α} (h : Settle c x y) : Settle c (inBlock x) (inBlock y) :=
  fun m hm => h.inScope m.scopes.current m hm

/-- Inside an active call there is one more, and behind it there is not. -/
theorem Settle.counted {x y : Exec α} (h : Settle (c + 1) x y) :
    Settle c (counted x) (counted y) := by
  intro m hm
  obtain ⟨hsame, hends⟩ := h { m with calls := m.calls + 1 }
    ⟨congrArg (· + 1) hm.calls_eq, hm.functions⟩
  constructor
  · simp only [Exec.counted, hsame]
  · rw [ends_counted]
    have hback : ∀ m' : Machine, m'.WhileFree (c + 1) →
        { m' with calls := m'.calls - 1 }.WhileFree c :=
      fun m' hm' => ⟨by rw [hm'.calls_eq, Nat.add_sub_cancel], hm'.functions⟩
    exact hends.imp (fun _ m' _ hm' => hback m' hm') (fun _ m' _ hm' => ⟨hm'.1, hback m' hm'.2⟩)

/-! ## Calls -/

/-- How methods without `WHILE` are called in the two runs. -/
def InvokesSettle (c : Nat) (inv inv' : Invoke) : Prop :=
  ∀ method values, method.whileFree = true → Settle c (inv method values) (inv' method values)

/-- A call settles where the invocation does. -/
private theorem settle_call {inv inv' : Invoke} (h : InvokesSettle c inv inv') (name : String)
    (values : List Value) : Settle c (call inv name values) (call inv' name values) := by
  intro m hm
  simp only [call, Bind.bind, EStateM.bind, findFunction, Ends]
  cases hf : m.scopes.function? name values.length with
  | none => exact ⟨rfl, Halt.noConfusion, hm⟩
  | some callable =>
    have hfree := hm.functions.function? hf
    cases callable with
    | native native => exact settle_ofNative (native.call values) m hm
    | method method => exact h method values hfree m hm

/-- The steps of the machine settle; only a `WHILE` could run out of rounds. -/
private theorem lockstep_settle {env env' : Env} {inv inv' : Invoke}
    (hobjects : env'.objects = env.objects) (h : InvokesSettle c inv inv') :
    Lockstep env env' inv inv' False (Settle c) where
  objects_eq := hobjects
  pure := settle_pure
  fail := settle_fail
  bind := Settle.bind
  readVariable := settle_readVariable
  writeVariable := settle_writeVariable
  defineVariable := settle_defineVariable
  inBlock := Settle.inBlock
  readField := fun _ _ => settle_ofNative _
  writeField := fun _ _ _ => settle_ofNative _
  call := settle_call h
  method := fun _ _ => settle_ofNative _
  exhausted := False.elim

/-- Levels of calls are never what stops a run: any two numbers do the same that exceed what the
    active calls leave of `maxCalls`. -/
theorem settle_invokeWithin {env env' : Env} (hobjects : env'.objects = env.objects) (n n' : Nat)
    (hn : maxCalls < n + c) (hn' : maxCalls < n' + c) :
    InvokesSettle c (invokeWithin env n) (invokeWithin env' n') := by
  -- Induction on the levels of the first run; every call takes one off and makes one active.
  induction n generalizing n' c with
  | zero =>
    intro method values _ m hm
    have hfull : maxCalls ≤ m.calls := by rw [hm.calls_eq]; omega
    rw [invokeWithin_of_maxCalls_le env' n' method values hfull]
    exact settle_fail _ m hm
  | succ n ih =>
    intro method values hfree m hm
    by_cases hfull : maxCalls ≤ m.calls
    · rw [invokeWithin_of_maxCalls_le env' n' method values hfull, Ends,
        invokeWithin_of_maxCalls_le env (n + 1) method values hfull]
      exact settle_fail _ m hm
    · have hlt : m.calls < maxCalls := Nat.not_le.mp hfull
      have hcalls := hm.calls_eq
      obtain ⟨n', rfl⟩ : ∃ k, n' = k + 1 := ⟨n' - 1, by omega⟩
      have L := lockstep_settle hobjects (ih (c := c + 1) n' (by omega) (by omega))
      have hbody := L.methodBody method values (.inr hfree)
      rw [invokeWithin_of_lt_maxCalls env' n' method values hlt, Ends,
        invokeWithin_of_lt_maxCalls env n method values hlt]
      exact ((hbody.inScope global).counted.bind fun completion =>
        settle_pure completion.value) m hm

/-- Two runs of a program without `WHILE`, with more than `maxCalls` levels. -/
private theorem settle_executeVia (env env' : Env) (hobjects : env'.objects = env.objects)
    {n n' : Nat}
    (hn : maxCalls < n) (hn' : maxCalls < n') {source : Source} (hfree : source.whileFree = true) :
    Settle 0 (executeVia env (invokeWithin env n) source)
      (executeVia env' (invokeWithin env' n') source) := by
  have L := lockstep_settle hobjects (settle_invokeWithin (c := 0) hobjects n n' hn hn')
  exact L.executeVia source fun method hmem =>
    settle_defineMethod (List.all_eq_true.mp hfree method hmem)

end Exec

/-! ## Sessions -/

/-- The methods that are bound in the global scope, between two runs. -/
def Session.methods (s : Session) (method : Method) : Prop :=
  ∃ key, s.machine.scopes.found (·.functions.get? key) global = some (.method method)

/-- Between two runs all functions are in the global frame. -/
theorem Session.Reachable.whileFree {s : Session} (h : s.Reachable)
    (hbound : ∀ method, s.methods method → method.whileFree = true) : s.machine.WhileFree 0 where
  calls_eq := h.resting.calls_eq
  functions := by
    intro i key f hf
    -- Between runs there is one frame, so every function that is known is a global one.
    have hi : i = global := by
      obtain ⟨frame, hframe, _⟩ := Option.bind_eq_some_iff.mp hf
      have hlt := (Array.getElem?_eq_some_iff.mp hframe).1
      have hsize := h.resting.located.size_eq
      show i = 0
      omega
    subst hi
    -- Natives have no body to search.
    cases f with
    | native native => rfl
    | method method => exact hbound method ⟨key, hf⟩

/-- A program without `WHILE` terminates with a result or an error, in every session none of
    whose methods has a `WHILE`, whatever the methods call and the loops run over.  Neither the
    rounds that a `WHILE` would have been given nor, beyond `maxCalls`, the levels of calls have
    any part in it. -/
theorem terminates_without_while {s : Session} (hs : s.Reachable) {source : Source}
    (hsource : source.whileFree = true)
    (hbound : ∀ method, s.methods method → method.whileFree = true) :
    ∃ result after, ∀ rounds,
      s.execute rounds source = some (result, after) ∧
      ∀ levels, maxCalls < levels →
        executeVia ⟨s.registry.objects, rounds⟩
            (invokeWithin ⟨s.registry.objects, rounds⟩ levels) source s.machine =
          execute ⟨s.registry.objects, rounds⟩ source s.machine := by
  have hfree := hs.whileFree hbound
  have hmax := Nat.lt_succ_self maxCalls
  -- Any run is compared with the one that is given no rounds at all.
  have hsame : ∀ rounds levels, maxCalls < levels →
      executeVia ⟨s.registry.objects, rounds⟩
          (invokeWithin ⟨s.registry.objects, rounds⟩ levels) source s.machine =
        execute ⟨s.registry.objects, 0⟩ source s.machine :=
    fun rounds levels hlevels =>
      (settle_executeVia ⟨_, 0⟩ ⟨_, rounds⟩ rfl hmax hlevels hsource s.machine hfree).1
  have hany : ∀ rounds, execute ⟨s.registry.objects, rounds⟩ source s.machine =
      execute ⟨s.registry.objects, 0⟩ source s.machine :=
    fun rounds => hsame rounds _ hmax
  obtain ⟨result, after, hresult⟩ : ∃ result after, s.execute 0 source = some (result, after) := by
    have hends := (settle_executeVia ⟨s.registry.objects, 0⟩ _ rfl hmax hmax hsource s.machine
      hfree).2
    unfold Session.execute
    cases hrun : execute ⟨s.registry.objects, 0⟩ source s.machine with
    | ok n m => exact ⟨_, _, rfl⟩
    | error halt m =>
      cases halt with
      | error e => exact ⟨_, _, rfl⟩
      | exhausted => exact absurd rfl (hends.of_error hrun).1
  refine ⟨result, after, fun rounds => ⟨?_, fun levels hlevels => ?_⟩⟩
  · rw [← hresult, Session.execute, Session.execute, hany rounds]
  · rw [hsame rounds levels hlevels, hany rounds]

/-- A method that counts down to zero by calling itself; there is no `main`. -/
def counting : Source where
  fields := []
  methods := [⟨0, "count", [⟨"n", none⟩], none,
    [.ifElse (.binary 1 .less (.var 2 "n") (.literal 3 (.integer 1)))
      [.returns (.literal 4 (.integer 0))] [],
    .returns (.binary 5 .plus (.literal 6 (.integer 1))
      (.call 7 "count" [.binary 8 .minus (.var 9 "n") (.literal 10 (.integer 1))]))]⟩]

/-- A `main` that calls the method `count`, which it does not define, in a loop. -/
def summing : Source where
  fields := [⟨0, "total", none, some (.literal 1 (.integer 0))⟩]
  methods := [⟨2, "main", [], none,
    [.forIn "i" (.call 3 "range" [.literal 4 (.integer 0), .literal 5 (.integer 4)])
      [.assign (.var 6 "total")
        (.binary 7 .plus (.var 8 "total") (.call 9 "count" [.var 10 "i"]))],
    .returns (.var 11 "total")]⟩]

/-- The first program fails for want of a `main` and leaves its method behind; the second one
    calls it and ends with the same result however many rounds a `WHILE` is given. -/
theorem summing_terminates : ∃ s s' after, Session.start .withRange default = .ok s ∧
    s.execute 0 counting = some (.error (.undefinedFunction "main" 0), s') ∧
    ∀ rounds, s'.execute rounds summing = some (.ok 6, after) := by
  obtain ⟨s, s', hs, hcounting, hsix, hmethods⟩ :
      ∃ s s', Session.start .withRange default = .ok s ∧
        s.execute 0 counting = some (.error (.undefinedFunction "main" 0), s') ∧
        (s'.execute 0 summing).any (·.1.toOption == some 6) ∧
        ∀ method, s'.methods method → method.whileFree = true := by
    refine ⟨_, _, rfl, rfl, by decide +kernel, ?_⟩
    -- Besides the two natives, only the method of the first program is bound.
    rintro method ⟨key, hfound⟩
    have hnatives := allFunctions_nativeScopes (P := fun f => f.whileFree = true) (fun _ _ => rfl)
      (show nativeScopes Registry.withRange.functions = .ok _ from rfl)
    exact hnatives.redefineFunction _ _ (by decide) _ _ _ hfound
  have hfree : summing.whileFree = true := by decide
  obtain ⟨result, after, hall⟩ :=
    terminates_without_while ((Session.Reachable.start hs).execute hcounting) hfree hmethods
  rw [(hall 0).1] at hsix
  cases result with
  | error e => exact nomatch hsix
  | ok n =>
    obtain rfl : n = 6 := by simpa [Except.toOption] using hsix
    exact ⟨s, s', after, hs, hcounting, fun rounds => (hall rounds).1⟩

end LetLang
