import LetLang.Proofs.Linking

/-! # Every step of a run is typed

Soundness says how a well-typed program ends; here it is followed into the run.  Whatever a run
comes to evaluate, call or execute is well typed in scopes that agree with the state at that
point (`Enters.typed` for one step, `Reached.typed` for a whole run), so every value that an
expression ever gives has the type that is noted for the expression, and every task that comes to
its end leaves a valid state behind (`Activation.Typed.run`). -/

namespace LetLang

open Scopes Exec

/-- The task is well typed in the scopes `Γ`, inside `k` frames.  Statements are always inside
    at least one. -/
def Task.Typed (R : Rules) (M : Meaning) (Γ : StaticScopes) (k : Nat) (w : World) : Task → Prop
  | .evaluate e => ∃ ty, ExprTyped R Γ e ty
  | .evaluateAll items => ∃ parameters, ArgumentsTyped R Γ items parameters
  | .call name values => ∃ binding, Γ.function? name values.length = some binding ∧
      List.Forall₂ (M.has w) values binding.signature.parameters
  | .declare d => ∃ ty, InitialTyped R Γ d.typeName d.initializer ty
  | .assign target value => target.isAccess ∧ ∃ targetType valueType,
      ExprTyped R Γ target targetType ∧ ExprTyped R Γ value valueType ∧
      targetType.accepts valueType
  | .statement s => 0 < k ∧ ∃ returns Γ', StatementTyped R returns Γ s Γ'
  | .statements body => 0 < k ∧ ∃ returns Γ', StatementsTyped R returns Γ body Γ'
  | .block body => 0 < k ∧ ∃ returns Γ', StatementsTyped R returns Γ.push body Γ'
  | .round name body _ | .rounds name body _ _ => 0 < k ∧ ∃ returns Γ₁ Γ',
      Γ.push.defineVariable name ⟨name, .integer⟩ = .ok Γ₁ ∧ StatementsTyped R returns Γ₁ body Γ'
  | .loop condition body _ => 0 < k ∧ ∃ ty returns Γ', ExprTyped R Γ condition ty ∧
      Ty.boolean.accepts ty ∧ StatementsTyped R returns Γ.push body Γ'

/-- The task of the activation is well typed in scopes that agree with its state. -/
inductive Activation.Typed (R : Rules) (M : Meaning) (a : Activation) : Prop where
  | intro {P Γ b k} :
    P.Justified R M → Agrees R M P Γ b k a.machine → a.task.Typed R M Γ k a.machine.world →
    Typed R M a

/-- What a well-typed task starts is well typed. -/
theorem Enters.typed {R : Rules} {M : Meaning} {env : Env} {source : Source} {a a' : Activation}
    (h : Enters env a a') (hS : Sound R M env source) (ha : a.Typed R M) : a'.Typed R M := by
  -- One case for each way in which a task starts another; soundness of what ran before gives the
  -- state in which the new task starts.
  obtain @⟨P, Γ, b, k, hP, hm, ht⟩ := ha
  have S := hS.setting hP
  cases h with
  -- What is evaluated first starts in the state of the task itself.
  | group =>
    have ⟨_, .group _ hinner _⟩ := ht
    exact .intro hP hm ⟨_, hinner⟩
  | left =>
    have ⟨_, .binary hleft _ _ _⟩ := ht
    exact .intro hP hm ⟨_, hleft⟩
  -- The left operand may have changed globals and objects, but nothing that the scopes say.
  | right hrun _ =>
    have ⟨_, .binary hleft hright _ _⟩ := ht
    exact .intro hP ((evaluate_sound (S _) _ hleft hm).of_ok hrun).agrees ⟨_, hright⟩
  | fieldReceiver =>
    have ⟨_, .field hreceiver _ _ _⟩ := ht
    exact .intro hP hm ⟨_, hreceiver⟩
  | callArguments =>
    have ⟨_, .call _ hitems _ _⟩ := ht
    exact .intro hP hm ⟨_, hitems⟩
  -- The function is looked up by the number of values, which is that of the parameters.
  | callFunction hrun =>
    have ⟨_, .call hf hitems _ _⟩ := ht
    obtain ⟨hvalues, _, hm'⟩ := (evaluateAll_sound (S _) _ hitems hm).of_ok hrun
    rw [hitems.length_eq, ← hvalues.length_eq] at hf
    exact .intro hP hm' ⟨_, hf, hvalues⟩
  | invokeReceiver =>
    have ⟨_, .invoke hreceiver _ _ _ _⟩ := ht
    exact .intro hP hm ⟨_, hreceiver⟩
  | invokeArguments hrun _ =>
    have ⟨_, .invoke hreceiver _ hitems _ _⟩ := ht
    exact .intro hP ((evaluate_sound (S _) _ hreceiver hm).of_ok hrun).agrees ⟨_, hitems⟩
  | head =>
    have ⟨_, .cons hitem _ _⟩ := ht
    exact .intro hP hm ⟨_, hitem⟩
  | tail hrun =>
    have ⟨_, .cons hitem _ hrest⟩ := ht
    exact .intro hP ((evaluate_sound (S _) _ hitem hm).of_ok hrun).agrees ⟨_, hrest⟩
  | @body n m name values method m' hbound _ hrun =>
    obtain ⟨binding, hf, hvalues⟩ := ht
    -- The function that is bound is the one that the analysis knows.
    obtain ⟨callable, hcallable, hmeets⟩ := hm.function hf
    rw [hbound] at hcallable
    cases hcallable
    obtain ⟨returns, hchecked, _⟩ := hmeets
    obtain ⟨Γ₁, Γ₂, Γ₃, hknows, hparameters, hbody⟩ := (hP _ _ hchecked).body
    have hstart := Agrees.call hm.globals hknows
    obtain ⟨_, hm'⟩ := (defineParameters_sound hparameters hstart hvalues).of_ok hrun
    exact .intro hP hm' ⟨Nat.one_pos, _, _, hbody⟩
  -- The derivation of a declaration tells apart whether the type is written or inferred.
  | initializer =>
    obtain ⟨_, hinitial⟩ := ht
    cases hinitial with
    | annotated _ he _ => exact .intro hP hm ⟨_, he⟩
    | inferred he => exact .intro hP hm ⟨_, he⟩
  | assigned =>
    obtain ⟨_, _, _, _, hvalue, _⟩ := ht
    exact .intro hP hm ⟨_, hvalue⟩
  | assignReceiver =>
    have ⟨_, _, _, .field hreceiver _ _ _, _⟩ := ht
    exact .intro hP hm ⟨_, hreceiver⟩
  | assignedField hrun =>
    have ⟨_, _, _, .field hreceiver _ _ _, hvalue, _⟩ := ht
    exact .intro hP ((evaluate_sound (S _) _ hreceiver hm).of_ok hrun).agrees ⟨_, hvalue⟩
  | expression =>
    have ⟨_, _, _, .expression hvalue⟩ := ht
    exact .intro hP hm ⟨_, hvalue⟩
  | declare =>
    have ⟨_, _, _, .declare ⟨hinitial, _, _⟩⟩ := ht
    exact .intro hP hm ⟨_, hinitial⟩
  | assign =>
    have ⟨_, _, _, .assign haccess htarget hvalue haccepts⟩ := ht
    exact .intro hP hm ⟨haccess, _, _, htarget, hvalue, haccepts⟩
  | ifCondition =>
    have ⟨_, _, _, .ifElse hc _ _ _⟩ := ht
    exact .intro hP hm ⟨_, hc⟩
  | @ifBody n m condition thenBody elseBody holds m' hrun =>
    have ⟨hk, _, _, .ifElse hc hty hthen helse⟩ := ht
    obtain ⟨_, hm'⟩ := (condition_sound (S _) hc hty hm).of_ok hrun
    cases holds with
    | true => exact .intro hP hm' ⟨hk, _, _, hthen⟩
    | false => exact .intro hP hm' ⟨hk, _, _, helse⟩
  | forIterable =>
    have ⟨_, _, _, .forIn hi _ _ _⟩ := ht
    exact .intro hP hm ⟨_, hi⟩
  -- The rounds are typed in the scopes of the statement, which has no new names outside of its
  -- body.
  | forRounds hrun _ =>
    have ⟨hk, _, _, .forIn hi _ hdefine hbody⟩ := ht
    have hm' := ((evaluate_sound (S _) _ hi hm).of_ok hrun).agrees
    exact .intro hP hm' ⟨hk, _, _, _, hdefine, hbody⟩
  | whileLoop =>
    have ⟨hk, _, _, .whileDo hc hty hbody⟩ := ht
    exact .intro hP hm ⟨hk, _, _, _, hc, hty, hbody⟩
  | returned =>
    have ⟨_, _, _, .returns hvalue _⟩ := ht
    exact .intro hP hm ⟨_, hvalue⟩
  | first =>
    have ⟨hk, _, _, .cons hs _⟩ := ht
    exact .intro hP hm ⟨hk, _, _, hs⟩
  | next hrun =>
    have ⟨hk, _, _, .cons hs hrest⟩ := ht
    obtain ⟨k, rfl⟩ := Nat.exists_eq_add_one.mpr hk
    obtain ⟨_, hm'⟩ := (statement_sound (S _) _ hs hm).of_ok hrun
    exact .intro hP hm' ⟨hk, _, _, hrest⟩
  -- Inside a block there is one more frame on both sides.
  | blockBody =>
    obtain ⟨_, _, _, hbody⟩ := ht
    exact .intro hP hm.push ⟨Nat.succ_pos k, _, _, hbody⟩
  | roundBody hrun =>
    obtain ⟨_, _, _, _, hdefine, hbody⟩ := ht
    obtain ⟨_, hm'⟩ := (defineVariable_sound hm.push hdefine hS.lawful.integer).of_ok hrun
    exact .intro hP hm' ⟨Nat.succ_pos k, _, _, hbody⟩
  | firstRound => exact .intro hP hm ht
  | nextRound hrun =>
    obtain ⟨hk, _, _, _, hdefine, hbody⟩ := ht
    obtain ⟨k, rfl⟩ := Nat.exists_eq_add_one.mpr hk
    obtain ⟨_, hm'⟩ := (forRound_sound (S _) hdefine hbody
      (fun _ h => statements_sound (S _) _ hbody h) _ hm).of_ok hrun
    exact .intro hP hm' ⟨hk, _, _, _, hdefine, hbody⟩
  | loopCondition =>
    obtain ⟨_, _, _, _, hc, _, _⟩ := ht
    exact .intro hP hm ⟨_, hc⟩
  | loopBody hrun =>
    obtain ⟨hk, _, _, _, hc, hty, hbody⟩ := ht
    obtain ⟨_, hm'⟩ := (condition_sound (S _) hc hty hm).of_ok hrun
    exact .intro hP hm' ⟨hk, _, _, hbody⟩
  -- The next round starts where condition and block of this one have ended.
  | loopNext htest hrun =>
    obtain ⟨hk, _, _, _, hc, hty, hbody⟩ := ht
    obtain ⟨k, rfl⟩ := Nat.exists_eq_add_one.mpr hk
    obtain ⟨_, hm₁⟩ := (condition_sound (S _) hc hty hm).of_ok htest
    obtain ⟨_, hm₂⟩ := (block_sound (S _) _ hbody hm₁).of_ok hrun
    exact .intro hP hm₂ ⟨hk, _, _, _, hc, hty, hbody⟩

/-- What the machine does for a task. -/
def Task.run (env : Env) (n : Nat) : Task → Exec Unit
  | .evaluate e => discard (Exec.evaluate env (invokeWithin env n) e)
  | .evaluateAll items => discard (Exec.evaluateAll env (invokeWithin env n) items)
  | .call name values => discard (Exec.call (invokeWithin env n) name values)
  | .declare d => Exec.declare env (invokeWithin env n) d
  | .assign target value => Exec.assign env (invokeWithin env n) target value
  | .statement s => discard (Exec.statement env (invokeWithin env n) s)
  | .statements body => discard (Exec.statements env (invokeWithin env n) body)
  | .block body => discard (inBlock (Exec.statements env (invokeWithin env n) body))
  | .round name body k => discard (Exec.round env (invokeWithin env n) name body k)
  | .rounds name body k count =>
    discard (forRounds (Exec.round env (invokeWithin env n) name body) k count)
  | .loop condition body count =>
    discard (whileRounds (test env (invokeWithin env n) condition)
      (inBlock (Exec.statements env (invokeWithin env n) body)) count)

/-- Statements that complete leave a valid state, whether or not they return. -/
theorem Completes.valid {R : Rules} {M : Meaning} {P : Program} {Γ : StaticScopes} {returns : Ty}
    {b k : Nat} {m m' : Machine} {completion : Completion}
    (h : Completes R M P Γ returns b k m completion m') : M.valid m'.world := by
  cases completion with
  | normal => exact h.2.globals.valid
  | returned v => exact h.2.1.valid

/-- A well-typed task that comes to its end leaves a valid state. -/
theorem Activation.Typed.run {R : Rules} {M : Meaning} {env : Env} {source : Source}
    {a : Activation} (hS : Sound R M env source) (ha : a.Typed R M) :
    Ends (a.task.run env a.level) a.machine (fun _ m' => M.valid m'.world) (fun _ _ => True) := by
  obtain ⟨n, task, m⟩ := a
  obtain @⟨P, Γ, b, k, hP, hm, ht⟩ := ha
  have S := hS.setting hP n
  have hcompletes : ∀ {x : Exec Completion} {Γ' returns b' k'},
      Ends x m (Completes R M P Γ' returns b' k' m) (fun halt _ => M.Allows halt) →
      Ends (discard x) m (fun _ m' => M.valid m'.world) (fun _ _ => True) := fun h => by
    rw [ends_discard]
    exact h.imp (fun _ _ _ hc => hc.valid) (fun _ _ _ _ => trivial)
  -- Each kind of task has its soundness lemma; only what it says of the world is kept.
  cases task with
  | evaluate e =>
    obtain ⟨ty, he⟩ := ht
    rw [Task.run, ends_discard]
    exact (evaluate_sound S e he hm).imp (fun _ _ _ hv => hv.agrees.globals.valid)
      (fun _ _ _ _ => trivial)
  | evaluateAll items =>
    obtain ⟨parameters, hitems⟩ := ht
    rw [Task.run, ends_discard]
    exact (evaluateAll_sound S items hitems hm).imp (fun _ _ _ hv => hv.2.2.globals.valid)
      (fun _ _ _ _ => trivial)
  | call name values =>
    -- A call takes place in the caller's scopes and returns to them.
    obtain ⟨binding, hf, hvalues⟩ := ht
    rw [Task.run, ends_discard]
    exact (call_sound S hm hf hvalues).imp (fun _ _ _ hv => hv.agrees.globals.valid)
      (fun _ _ _ _ => trivial)
  | declare d =>
    obtain ⟨ty, hinitial⟩ := ht
    refine declare_sound S hm hinitial (fun _ _ _ => trivial) fun v m' hv => ?_
    -- The name may be taken, but defining a variable changes nothing but the scopes.
    rw [ends_defineVariable]
    split
    · exact hv.agrees.globals.valid
    · trivial
  | assign target value =>
    obtain ⟨haccess, _, _, htarget, hvalue, haccepts⟩ := ht
    exact (assign_sound S hm haccess htarget hvalue haccepts).imp
      (fun _ _ _ h => h.2.globals.valid) (fun _ _ _ _ => trivial)
  | statement s =>
    obtain ⟨hk, _, _, hs⟩ := ht
    -- Statements run inside a method, so there is a local scope.
    obtain ⟨k, rfl⟩ := Nat.exists_eq_add_one.mpr hk
    exact hcompletes (statement_sound S s hs hm)
  | statements body =>
    obtain ⟨hk, _, _, hbody⟩ := ht
    obtain ⟨k, rfl⟩ := Nat.exists_eq_add_one.mpr hk
    exact hcompletes (statements_sound S body hbody hm)
  | block body =>
    obtain ⟨hk, _, _, hbody⟩ := ht
    obtain ⟨k, rfl⟩ := Nat.exists_eq_add_one.mpr hk
    exact hcompletes (block_sound S body hbody hm)
  | round name body i =>
    obtain ⟨hk, _, _, _, hdefine, hbody⟩ := ht
    obtain ⟨k, rfl⟩ := Nat.exists_eq_add_one.mpr hk
    exact hcompletes (forRound_sound S hdefine hbody
      (fun _ h => statements_sound S body hbody h) i hm)
  | rounds name body i count =>
    obtain ⟨hk, _, _, _, hdefine, hbody⟩ := ht
    obtain ⟨k, rfl⟩ := Nat.exists_eq_add_one.mpr hk
    exact hcompletes (forRounds_sound S.lawful (fun i _ h => forRound_sound S hdefine hbody
      (fun _ h => statements_sound S body hbody h) i h) count i hm)
  | loop condition body count =>
    obtain ⟨hk, _, _, _, hc, hty, hbody⟩ := ht
    obtain ⟨k, rfl⟩ := Nat.exists_eq_add_one.mpr hk
    exact hcompletes (whileRounds_sound S.lawful (fun _ h => condition_sound S hc hty h)
      (fun _ h => block_sound S body hbody h) count hm)

/-- Declarations in order, up to one of them. -/
theorem FieldsTyped.split {R : Rules} : ∀ {before after : List Declaration} {d : Declaration}
    {Γ Γ' : StaticScopes}, FieldsTyped R Γ (before ++ d :: after) Γ' →
    ∃ Γ₁ Γ₂, FieldsTyped R Γ before Γ₁ ∧ DeclarationTyped R Γ₁ d Γ₂
  | [], _, _, _, _, .cons hd _ => ⟨_, _, .nil, hd⟩
  | _ :: _, _, _, _, _, .cons hd hrest =>
    have ⟨Γ₁, Γ₂, hbefore, hlast⟩ := hrest.split
    ⟨Γ₁, Γ₂, .cons hd hbefore, hlast⟩

/-- Whatever the run of a well-typed program comes to is well typed. -/
theorem Reached.typed {R : Rules} {M : Meaning} {env : Env} {source : Source} {start : Machine}
    {a : Activation} (h : Reached env source start a) (hS : Sound R M env source)
    (hstart : Launched R M source start) : a.Typed R M := by
  -- Induction over how the activation was reached: a global, `main`, or one more step.
  induction h with
  | field hfields hrun =>
    obtain ⟨hfresh, htop, htyped, _⟩ := hstart
    rw [hfields] at htyped
    obtain ⟨Γ₁, Γ₂, hbefore, hd⟩ := htyped.split
    obtain ⟨P', _, htop'⟩ := (hS.fields htop hfresh hbefore).of_ok hrun
    obtain ⟨hinitial, _, _⟩ := hd
    exact .intro htop'.justified htop'.agrees ⟨_, hinitial⟩
  | main hfields hmethods =>
    -- The analysis has checked that there is a `main` without parameters.
    obtain ⟨P, Γ, binding, htop, hmain, hparameters, _⟩ :=
      ((ends_bind.mp (hstart.main hS)).of_ok hfields).of_ok hmethods
    refine .intro htop.justified htop.agrees ⟨binding, hmain, ?_⟩
    rw [hparameters]
    exact .nil
  | step _ hstep ih => exact hstep.typed hS ih

/-- Every value that an expression gives in the run of a well-typed program has the type that is
    noted for the expression. -/
theorem Reached.value_typed {R : Rules} {M : Meaning} {env : Env} {source : Source}
    {start m m' : Machine} {n : Nat} {e : Expr} {v : Value}
    (h : Reached env source start ⟨n, .evaluate e, m⟩) (hS : Sound R M env source)
    (hstart : Launched R M source start)
    (hrun : evaluate env (invokeWithin env n) e m = .ok v m') :
    ∃ ty, R.type e.id ty ∧ M.has m'.world v ty := by
  -- The type of the value is the one in the derivation, which notes it.
  obtain ⟨hP, hagrees, ty, he⟩ := h.typed hS hstart
  have hv := (evaluate_sound (hS.setting hP n) e he hagrees).of_ok hrun
  exact ⟨ty, he.noted, hv.has⟩

end LetLang
