import LetLang.Proofs.Activation
import LetLang.Proofs.Values

/-! # Where a failed write leaves a run

Only natives write, so a write can only fail in a native, and the error then passes through all
that is still to do: nothing is evaluated or called any more, and all that happens is that scopes
are left.  At the end of the run the heap, the output and the globals are what they were when the
native failed.

* `CallsNative`                 the run comes to call a native
* `LeftByNative`                what a native that failed has left, at the end of the run
* `stopsAtWrite_evaluate`, `stopsAtWrite_statements`, `stopsAtWrite_call`   one lemma for each kind
  of task, by the recursion of the machine
* `execute_stopsAtWrite`        the result for whole runs
-/

namespace LetLang

open Scopes Exec

/-- The run of a program comes to call the native with these values, in this state. -/
inductive CallsNative (env : Env) (source : Source) (start : Machine) (native : Native) :
    List Value → Machine → Prop where
  | function {n name values m} :
    Reached env source start ⟨n, .call name values, m⟩ →
    m.scopes.function? name values.length = some (.native native) →
    CallsNative env source start native values m
  | method {n id receiver name items v values m m₁ m₂} :
    Reached env source start ⟨n, .evaluate (.invoke id receiver name items), m⟩ →
    evaluate env (invokeWithin env n) receiver m = .ok v m₁ →
    v.method env.objects name (items.length + 1) = .ok native →
    evaluateAll env (invokeWithin env n) items m₁ = .ok values m₂ →
    CallsNative env source start native (v :: values) m₂

/-- The state is what a native that failed with this error has left: the world is the one in
    which it failed, and the globals are those that it was called with. -/
def LeftByNative (env : Env) (source : Source) (start : Machine) (e : RuntimeError)
    (m' : Machine) : Prop :=
  ∃ native values m, CallsNative env source start native values m ∧
    native.call values m.world = .error e m'.world ∧
    m'.scopes.frames[0]? = m.scopes.frames[0]?

namespace Exec

variable {α β : Type} {env : Env} {source : Source} {start : Machine}

/-- Started in `m`, the computation fails to write only where a native has failed to. -/
def StopsAtWrite (env : Env) (source : Source) (start : Machine) (x : Exec α) (m : Machine) :
    Prop :=
  Ends x m (fun _ _ => True) fun halt m' => ∀ reason, halt = .error (.output reason) →
    LeftByNative env source start (.output reason) m'

/-- A check that is passed leaves the state as it is. -/
theorem of_ofExcept_eq_ok {x : Except RuntimeError α} {a : α} {m m' : Machine}
    (h : ofExcept x m = .ok a m') : x = .ok a ∧ m = m' := by
  cases x with
  | ok b =>
    cases h
    exact ⟨rfl, rfl⟩
  | error e => exact nomatch h

/-- A value that passes the check is a boolean. -/
private theorem of_ofExcept_toBool {v : Value} {holds : Bool} {m m' : Machine}
    (h : ofExcept v.toBool m = .ok holds m') : v = .boolean holds ∧ m = m' := by
  obtain ⟨hv, rfl⟩ := of_ofExcept_eq_ok h
  cases v with
  | boolean b =>
    cases hv
    exact ⟨rfl, rfl⟩
  | _ => exact nomatch hv

section Steps

variable {m : Machine}

private theorem stopsAtWrite_pure (a : α) : StopsAtWrite env source start (pure a) m := trivial

/-- In a sequence the second part runs on from where the first one ended. -/
theorem StopsAtWrite.bind {x : Exec α} {f : α → Exec β} (hx : StopsAtWrite env source start x m)
    (hf : ∀ a m', x m = .ok a m' → StopsAtWrite env source start (f a) m') :
    StopsAtWrite env source start (x >>= f) m :=
  Ends.bind hx fun a m' hrun _ => hf a m' hrun

/-- An error that is not about writing. -/
private theorem stopsAtWrite_ofExcept {x : Except RuntimeError α}
    (hx : ∀ reason, x ≠ .error (.output reason)) : StopsAtWrite env source start (ofExcept x) m := by
  unfold StopsAtWrite
  rw [ends_ofExcept]
  cases x with
  | ok a => trivial
  | error e =>
    intro reason h
    cases h
    exact absurd rfl (hx reason)

/-- A value that is no boolean is no failed write. -/
private theorem stopsAtWrite_toBool (v : Value) :
    StopsAtWrite env source start (ofExcept v.toBool) m :=
  stopsAtWrite_ofExcept fun _ h => nomatch Value.toBool_eq_error h

/-- A missing variable is no failed write. -/
private theorem stopsAtWrite_readVariable (name : String) :
    StopsAtWrite env source start (readVariable name) m := by
  unfold StopsAtWrite
  rw [ends_readVariable]
  cases m.scopes.lookup? name with
  | some v => trivial
  | none => exact fun _ h => nomatch h

private theorem stopsAtWrite_writeVariable (name : String) (value : Value) :
    StopsAtWrite env source start (writeVariable name value) m := by
  unfold StopsAtWrite
  rw [ends_writeVariable]
  cases m.scopes.search fun frame => frame.vars.get? name with
  | some found => trivial
  | none => exact fun _ h => nomatch h

/-- A name that is taken is no failed write. -/
private theorem stopsAtWrite_changeScopes
    (f : Scopes Value Callable → Except ScopeError (Scopes Value Callable)) :
    StopsAtWrite env source start (changeScopes f) m := by
  unfold StopsAtWrite
  rw [ends_changeScopes]
  cases f m.scopes with
  | ok scopes => trivial
  | error e => exact fun _ h => nomatch h

/-- A missing field is no failed write. -/
private theorem stopsAtWrite_readField (receiver : Value) (name : String) :
    StopsAtWrite env source start (ofNative (NativeM.readField receiver name)) m := by
  unfold StopsAtWrite
  rw [ends_ofNative, Ends, NativeM.readField]
  cases hread : m.world.heap.read receiver name with
  | ok v => trivial
  | error e =>
    obtain rfl := Heap.read_eq_error hread
    intro _ h
    cases h

private theorem stopsAtWrite_writeField (receiver : Value) (name : String) (value : Value) :
    StopsAtWrite env source start (ofNative (NativeM.writeField receiver name value)) m := by
  unfold StopsAtWrite
  rw [ends_ofNative, Ends, NativeM.writeField]
  cases hwrite : m.world.heap.write receiver name value with
  | ok heap => trivial
  | error e =>
    obtain rfl := Heap.write_eq_error hwrite
    intro _ h
    cases h

/-- A native that the run calls may fail. -/
private theorem stopsAtWrite_ofNative {native : Native} {values : List Value}
    (h : CallsNative env source start native values m) :
    StopsAtWrite env source start (ofNative (native.call values)) m := by
  unfold StopsAtWrite
  rw [ends_ofNative, Ends]
  cases hrun : native.call values m.world with
  | ok v w => trivial
  | error e w =>
    intro reason he
    cases he
    exact ⟨native, values, m, h, hrun, rfl⟩

/-- Leaving a scope leaves the globals alone. -/
theorem StopsAtWrite.inScope {body : Exec α} {parent : FrameId} (hroot : m.scopes.Rooted)
    (h : StopsAtWrite env source start body { m with scopes := m.scopes.pushChildOf parent })
    {b : Nat} (hrestores : body.Restores b { m with scopes := m.scopes.pushChildOf parent }) :
    StopsAtWrite env source start (inScope parent body) m := by
  unfold StopsAtWrite
  rw [ends_inScope]
  refine h.imp (fun _ _ _ _ => trivial) fun halt m' hrun hleft reason hreason => ?_
  obtain ⟨native, values, m₀, hcalls, hcall, hglobals⟩ := hleft reason hreason
  -- The block leaves the frames below its own, so the pop loses no global.
  have hkeeps := hrestores.of_error hrun
  refine ⟨native, values, m₀, hcalls, hcall, ?_⟩
  have hpos := hroot.size_pos
  exact (pop_frame_of_sameShape_push hkeeps.shape hpos hpos).trans hglobals

/-- Counting a call leaves heap, output and globals alone. -/
theorem StopsAtWrite.counted {body : Exec α}
    (h : StopsAtWrite env source start body { m with calls := m.calls + 1 }) :
    StopsAtWrite env source start (counted body) m := by
  unfold StopsAtWrite
  rw [ends_counted]
  exact h

end Steps

/-! ## Expressions -/

/-- Calls at that level that the run makes fail to write only where natives do. -/
def CallsStopAtWrite (env : Env) (source : Source) (start : Machine) (n : Nat) : Prop :=
  ∀ name values m, Reached env source start ⟨n, .call name values, m⟩ →
    StopsAtWrite env source start (call (invokeWithin env n) name values) m

section Tasks

variable {n : Nat}

mutual

/-- An expression that the run evaluates fails to write where a native that it calls does. -/
theorem stopsAtWrite_evaluate (hcall : CallsStopAtWrite env source start n) :
    ∀ (e : Expr) {m : Machine},
    Reached env source start ⟨n, .evaluate e, m⟩ →
    StopsAtWrite env source start (evaluate env (invokeWithin env n) e) m
  | .literal .., _, _ => trivial
  | .group _ inner, _, h => stopsAtWrite_evaluate hcall inner (h.step .group)
  | .binary _ operator left right, m, h => by
    have hright : ∀ a m', evaluate env (invokeWithin env n) left m = .ok a m' →
        operator.demandsRight a →
        StopsAtWrite env source start (evaluate env (invokeWithin env n) right) m' :=
      fun a m' hrun hdemands => stopsAtWrite_evaluate hcall right (h.step (.right hrun hdemands))
    refine (stopsAtWrite_evaluate hcall left (h.step .left)).bind fun a m' hrun => ?_
    -- The right operand is evaluated where the left one leaves the choice.
    split
    · refine (stopsAtWrite_toBool a).bind fun holds m'' htest => ?_
      obtain ⟨rfl, rfl⟩ := of_ofExcept_toBool htest
      cases holds with
      | true => exact (hright _ _ hrun rfl).bind fun b _ _ =>
          (stopsAtWrite_toBool b).bind fun c _ _ => stopsAtWrite_pure (Value.boolean c)
      | false => exact stopsAtWrite_pure _
    · refine (stopsAtWrite_toBool a).bind fun holds m'' htest => ?_
      obtain ⟨rfl, rfl⟩ := of_ofExcept_toBool htest
      cases holds with
      | true => exact stopsAtWrite_pure _
      | false => exact (hright _ _ hrun rfl).bind fun b _ _ =>
          (stopsAtWrite_toBool b).bind fun c _ _ => stopsAtWrite_pure (Value.boolean c)
    · refine (hright a m' hrun ?_).bind fun b _ _ => stopsAtWrite_ofExcept fun _ he => ?_
      · cases operator <;> trivial
      · obtain h | h := Value.binary_eq_error he <;> exact nomatch h
  | .var _ name, _, _ => stopsAtWrite_readVariable name
  | .field _ receiver name, _, h =>
    (stopsAtWrite_evaluate hcall receiver (h.step .fieldReceiver)).bind fun v _ _ =>
      stopsAtWrite_readField v name
  | .call _ name items, _, h =>
    (stopsAtWrite_evaluateAll hcall items (h.step .callArguments)).bind fun values m' hrun =>
      hcall name values m' (h.step (.callFunction hrun))
  | .invoke _ receiver name items, _, h => by
    refine (stopsAtWrite_evaluate hcall receiver (h.step .invokeReceiver)).bind fun v m₁ hv => ?_
    refine StopsAtWrite.bind (stopsAtWrite_ofExcept fun _ he => nomatch Value.method_eq_error he)
      fun native m₂ hmethod => ?_
    obtain ⟨hfound, rfl⟩ := of_ofExcept_eq_ok hmethod
    refine (stopsAtWrite_evaluateAll hcall items (h.step (.invokeArguments hv hfound))).bind
      fun values m₃ hvalues => ?_
    exact stopsAtWrite_ofNative (.method h hv hfound hvalues)

/-- Arguments fail to write where a call in one of them does. -/
private theorem stopsAtWrite_evaluateAll (hcall : CallsStopAtWrite env source start n) :
    ∀ (items : List Expr) {m : Machine},
    Reached env source start ⟨n, .evaluateAll items, m⟩ →
    StopsAtWrite env source start (evaluateAll env (invokeWithin env n) items) m
  | [], _, _ => trivial
  | e :: rest, _, h =>
    (stopsAtWrite_evaluate hcall e (h.step .head)).bind fun v _ hrun =>
      (stopsAtWrite_evaluateAll hcall rest (h.step (.tail hrun))).bind fun values _ _ =>
        stopsAtWrite_pure (v :: values)

end

/-! ## Statements -/

/-- A declaration fails to write where its initial value does. -/
private theorem stopsAtWrite_declare (hcall : CallsStopAtWrite env source start n) (d : Declaration)
    {m : Machine}
    (h : Reached env source start ⟨n, .declare d, m⟩) :
    StopsAtWrite env source start (declare env (invokeWithin env n) d) m := by
  obtain ⟨id, name, typeName, initializer⟩ := d
  cases initializer with
  | none => exact stopsAtWrite_changeScopes (·.defineVariable name .nil)
  | some e =>
    exact (stopsAtWrite_evaluate hcall e (h.step .initializer)).bind fun v _ _ =>
      stopsAtWrite_changeScopes _

/-- An assignment fails to write where one of its expressions does. -/
private theorem stopsAtWrite_assign (hcall : CallsStopAtWrite env source start n)
    (target value : Expr) {m : Machine}
    (h : Reached env source start ⟨n, .assign target value, m⟩) :
    StopsAtWrite env source start (assign env (invokeWithin env n) target value) m := by
  -- A failed write can come from the receiver or from the value, not from the assignment itself.
  cases target with
  | var id name =>
    exact (stopsAtWrite_evaluate hcall value (h.step .assigned)).bind fun v _ _ =>
      stopsAtWrite_writeVariable name v
  | field id receiver name =>
    exact (stopsAtWrite_evaluate hcall receiver (h.step .assignReceiver)).bind fun object _ hrun =>
      (stopsAtWrite_evaluate hcall value (h.step (.assignedField hrun))).bind fun v _ _ =>
        stopsAtWrite_writeField object name v
  | _ => exact fun _ h => nomatch h

/-- The condition of a loop fails to write where a call in it does. -/
private theorem stopsAtWrite_test (hcall : CallsStopAtWrite env source start n) (condition : Expr)
    {m : Machine}
    (h : Reached env source start ⟨n, .evaluate condition, m⟩) :
    StopsAtWrite env source start (test env (invokeWithin env n) condition) m :=
  (stopsAtWrite_evaluate hcall condition h).bind fun v _ _ => stopsAtWrite_toBool v

/-- A block that the run enters fails to write where its statements do. -/
private theorem stopsAtWrite_block (hstart : start.Resting) {body : List Statement} {m : Machine}
    (h : Reached env source start ⟨n, .block body, m⟩)
    (hbody : ∀ {m}, Reached env source start ⟨n, .statements body, m⟩ →
      StopsAtWrite env source start (statements env (invokeWithin env n) body) m) :
    StopsAtWrite env source start (inBlock (statements env (invokeWithin env n) body)) m := by
  have hready := h.ready hstart
  obtain ⟨b, k, hloc⟩ := hready.located rfl
  exact (hbody (h.step .blockBody)).inScope hready.rooted
    (tidy_statements env (quiet_invokeWithin env n) body _ b (k + 1) hloc.push)

/-- A round of a loop fails to write where its statements do. -/
private theorem stopsAtWrite_round (hstart : start.Resting) {name : String} {body : List Statement}
    {k : Int} {m : Machine}
    (h : Reached env source start ⟨n, .round name body k, m⟩)
    (hbody : ∀ {m}, Reached env source start ⟨n, .statements body, m⟩ →
      StopsAtWrite env source start (statements env (invokeWithin env n) body) m) :
    StopsAtWrite env source start (round env (invokeWithin env n) name body k) m := by
  have hready := h.ready hstart
  obtain ⟨b, j, hloc⟩ := hready.located rfl
  have hinv := quiet_invokeWithin env n
  -- The loop variable lives in the frame of the round and is no global.
  refine StopsAtWrite.inScope hready.rooted ?_
    (((tidy_defineVariable name (.integer k)).bind fun _ => tidy_statements env hinv body) _ b
      (j + 1) hloc.push)
  exact StopsAtWrite.bind (stopsAtWrite_changeScopes _) fun _ _ hrun =>
    hbody (h.step (.roundBody hrun))

/-- Rounds of a `FOR`, one after the other. -/
private theorem stopsAtWrite_forRounds {name : String} {body : List Statement}
    (hround : ∀ {k m}, Reached env source start ⟨n, .round name body k, m⟩ →
      StopsAtWrite env source start (round env (invokeWithin env n) name body k) m)
    (count : Nat) : ∀ {k : Int} {m : Machine},
    Reached env source start ⟨n, .rounds name body k count, m⟩ →
    StopsAtWrite env source start
      (forRounds (round env (invokeWithin env n) name body) k count) m := by
  -- Every round is reached from the one before, so a call in it is a call of the run.
  induction count with
  | zero => exact fun _ => stopsAtWrite_pure _
  | succ count ih =>
    intro k m h
    refine (hround (h.step .firstRound)).bind fun completion m' hrun => ?_
    cases completion with
    | normal => exact ih (h.step (.nextRound hrun))
    | returned v => exact stopsAtWrite_pure _

/-- Rounds of a `WHILE`, as many as it may go through. -/
private theorem stopsAtWrite_whileRounds {condition : Expr} {body : List Statement}
    (htest : ∀ {m}, Reached env source start ⟨n, .evaluate condition, m⟩ →
      StopsAtWrite env source start (test env (invokeWithin env n) condition) m)
    (hblock : ∀ {m}, Reached env source start ⟨n, .block body, m⟩ →
      StopsAtWrite env source start (inBlock (statements env (invokeWithin env n) body)) m)
    (count : Nat) : ∀ {m : Machine},
    Reached env source start ⟨n, .loop condition body count, m⟩ →
    StopsAtWrite env source start
      (whileRounds (test env (invokeWithin env n) condition)
        (inBlock (statements env (invokeWithin env n) body)) count) m := by
  induction count with
  | zero => exact fun _ _ h => nomatch h
  | succ count ih =>
    intro m h
    refine (htest (h.step .loopCondition)).bind fun holds m' hrun => ?_
    -- The condition is evaluated again in the state that the body has left.
    cases holds with
    | false => exact stopsAtWrite_pure _
    | true =>
      refine (hblock (h.step (.loopBody hrun))).bind fun completion m'' hrun' => ?_
      cases completion with
      | normal => exact ih (h.step (.loopNext hrun hrun'))
      | returned v => exact stopsAtWrite_pure _

mutual

/-- A statement that the run executes fails to write where a native that it calls does. -/
private theorem stopsAtWrite_statement (hstart : start.Resting)
    (hcall : CallsStopAtWrite env source start n) : ∀ (s : Statement) {m : Machine},
    Reached env source start ⟨n, .statement s, m⟩ →
    StopsAtWrite env source start (statement env (invokeWithin env n) s) m
  | .expression value, _, h => by
    have hvalue := stopsAtWrite_evaluate hcall value (h.step .expression)
    refine StopsAtWrite.bind ?_ fun _ _ _ => stopsAtWrite_pure _
    unfold StopsAtWrite
    rw [ends_discard]
    exact hvalue
  | .declare d, _, h =>
    (stopsAtWrite_declare hcall d (h.step .declare)).bind fun _ _ _ => stopsAtWrite_pure _
  | .assign target value, _, h =>
    (stopsAtWrite_assign hcall target value (h.step .assign)).bind fun _ _ _ => stopsAtWrite_pure _
  | .ifElse condition thenBody elseBody, m, h => by
    refine (stopsAtWrite_evaluate hcall condition (h.step .ifCondition)).bind fun v m' hv => ?_
    refine (stopsAtWrite_toBool v).bind fun holds m'' hbool => ?_
    -- The two steps of the condition are one test, which decides the body.
    have htest : test env (invokeWithin env n) condition m = .ok holds m'' := by
      unfold test
      simp only [Bind.bind, EStateM.bind, hv]
      exact hbool
    have hblock := h.step (.ifBody htest)
    cases holds with
    | true => exact stopsAtWrite_block hstart hblock (stopsAtWrite_statements hstart hcall thenBody)
    | false => exact stopsAtWrite_block hstart hblock (stopsAtWrite_statements hstart hcall elseBody)
  | .forIn name iterable body, _, h => by
    refine (stopsAtWrite_evaluate hcall iterable (h.step .forIterable)).bind fun v m' hv => ?_
    cases helements : v.elements? with
    | none => exact fun _ h => nomatch h
    | some elements =>
      exact stopsAtWrite_forRounds
        (fun hround => stopsAtWrite_round hstart hround (stopsAtWrite_statements hstart hcall body)) _
        (h.step (.forRounds hv helements))
  | .whileDo condition body, _, h =>
    stopsAtWrite_whileRounds (stopsAtWrite_test hcall condition)
      (fun hblock => stopsAtWrite_block hstart hblock (stopsAtWrite_statements hstart hcall body)) _
      (h.step .whileLoop)
  | .returns value, _, h =>
    (stopsAtWrite_evaluate hcall value (h.step .returned)).bind fun _ _ _ => stopsAtWrite_pure _

/-- Statements fail to write where a call in one of them does. -/
theorem stopsAtWrite_statements (hstart : start.Resting)
    (hcall : CallsStopAtWrite env source start n) : ∀ (body : List Statement) {m : Machine},
    Reached env source start ⟨n, .statements body, m⟩ →
    StopsAtWrite env source start (statements env (invokeWithin env n) body) m
  | [], _, _ => stopsAtWrite_pure _
  | s :: rest, _, h => by
    refine (stopsAtWrite_statement hstart hcall s (h.step .first)).bind fun completion m' hrun => ?_
    cases completion with
    | normal => exact stopsAtWrite_statements hstart hcall rest (h.step (.next hrun))
    | returned v => exact stopsAtWrite_pure _

end

end Tasks

/-! ## Calls and programs -/

/-- A call fails to write where the native does that it calls, or the method. -/
theorem stopsAtWrite_call {n : Nat} {name : String} {values : List Value} {m : Machine}
    (h : Reached env source start ⟨n, .call name values, m⟩)
    (hmethod : ∀ method, m.scopes.function? name values.length = some (.method method) →
      StopsAtWrite env source start (invokeWithin env n method values) m) :
    StopsAtWrite env source start (call (invokeWithin env n) name values) m := by
  unfold StopsAtWrite call
  rw [ends_bind, ends_findFunction]
  cases hf : m.scopes.function? name values.length with
  | none => exact fun _ h => nomatch h
  | some callable =>
    -- A native fails here itself; a method hands on what its body did.
    cases callable with
    | native native => exact stopsAtWrite_ofNative (.function h hf)
    | method method => exact hmethod method hf

/-- Parameters are defined without a native. -/
private theorem stopsAtWrite_defineParameters :
    ∀ (parameters : List Parameter) (values : List Value)
    {m : Machine}, StopsAtWrite env source start (defineParameters parameters values) m
  | _ :: ps, _ :: vs, _ =>
    StopsAtWrite.bind (stopsAtWrite_changeScopes _) fun _ _ _ => stopsAtWrite_defineParameters ps vs
  | [], _, _ => stopsAtWrite_pure _
  | _ :: _, [], _ => stopsAtWrite_pure _

/-- Calls fail to write where natives do, however deep the calls in them go. -/
private theorem callsStopAtWrite (hstart : start.Resting) (n : Nat) :
    CallsStopAtWrite env source start n := by
  -- Induction on the levels of calls that are left; the body of a method has one less.
  induction n with
  | zero => exact fun name values m h => stopsAtWrite_call h fun _ _ _ h => nomatch h
  | succ n ih =>
    refine fun name values m h => stopsAtWrite_call h fun method hf => ?_
    by_cases hfull : maxCalls ≤ m.calls
    · unfold StopsAtWrite Ends
      rw [invokeWithin_of_maxCalls_le _ _ _ _ hfull]
      exact fun _ h => nomatch h
    · have hlt := Nat.not_le.mp hfull
      have hroot := (h.ready hstart).rooted
      have hrestores := tidy_methodBody env (quiet_invokeWithin env n) method values
        { m with calls := m.calls + 1, scopes := m.scopes.pushChildOf global } _ 0 hroot.enterCall
      unfold StopsAtWrite Ends
      rw [invokeWithin_of_lt_maxCalls _ _ _ _ hlt]
      refine StopsAtWrite.bind (.counted (.inScope hroot ?_ hrestores)) fun completion _ _ =>
        stopsAtWrite_pure completion.value
      exact (stopsAtWrite_defineParameters _ _).bind fun _ _ hrun =>
        stopsAtWrite_statements hstart ih method.body (h.step (.body hf hlt hrun))

/-- The globals from one of them on, when those before it have been defined. -/
private theorem stopsAtWrite_fields (hstart : start.Resting) (after : List Declaration) :
    ∀ (before : List Declaration) {m : Machine}, source.fields = before ++ after →
    before.forM (declare env (invoke env)) start = .ok () m →
    StopsAtWrite env source start (after.forM (declare env (invoke env))) m := by
  induction after with
  | nil => exact fun _ _ _ _ => stopsAtWrite_pure _
  | cons d after ih =>
    intro before m hfields hbefore
    have hd := stopsAtWrite_declare (callsStopAtWrite hstart _) d (.field hfields hbefore)
    exact hd.bind fun _ m' hrun =>
      ih (before ++ [d]) (by rw [hfields, List.append_assoc]; rfl) (forM_concat_eq_ok hbefore hrun)

/-- A run that fails to write stops where a native has failed to: nothing happens any more but that
    scopes are left. -/
theorem execute_stopsAtWrite (hstart : start.Resting) :
    StopsAtWrite env source start (execute env source) start := by
  unfold execute
  refine (stopsAtWrite_fields hstart _ [] rfl rfl).bind fun _ m₁ hfields => ?_
  refine StopsAtWrite.bind ?_ fun _ m₂ hmethods => ?_
  · refine ends_forM (I := fun _ => True) (fun method _ _ _ => ?_) trivial
    exact stopsAtWrite_changeScopes
      (·.defineFunction method.name method.parameters.length (.method method))
  -- The globals and the methods are in place when main is called.
  · have hmain := callsStopAtWrite hstart (maxCalls + 1) "main" [] m₂ (.main hfields hmethods)
    refine hmain.bind fun v _ _ => ?_
    cases v with
    | integer n => exact stopsAtWrite_pure n
    | _ => exact fun _ h => nomatch h

end Exec

end LetLang
