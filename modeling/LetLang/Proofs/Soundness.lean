import LetLang.Proofs.Agreement
import LetLang.Proofs.Values

/-! # Well-typed programs keep their word

A well-typed expression, run in a state that agrees with its scopes, gives a value of its type
or stops with an allowed error; a well-typed statement leads to a state that agrees with the
scopes behind it, or returns a value of the type to return.

Everything is shown for a given way to call methods, of which `Setting` says what is known;
`invokeSound_invokeWithin` closes the circle by induction on the levels of calls. -/

namespace LetLang

open Scopes Exec

/-! ## Scopes behind a statement -/

/-- A declaration adds a variable to the current scope, and nothing else. -/
theorem DeclarationTyped.grows {R : Rules} {Γ Γ' : StaticScopes} {d : Declaration}
    (h : DeclarationTyped R Γ d Γ') : Grows Γ Γ' := by
  obtain ⟨_, hdefine, _⟩ := h
  exact .of_defineVariable hdefine

/-- A statement adds at most a variable. -/
theorem StatementTyped.grows {R : Rules} {returns : Ty} {Γ Γ' : StaticScopes} {s : Statement}
    (h : StatementTyped R returns Γ s Γ') : Grows Γ Γ' := by
  cases h with
  | declare hd => exact hd.grows
  | _ => exact .refl _

/-- Statements in a row only add to the scopes. -/
theorem StatementsTyped.grows {R : Rules} {returns : Ty} : ∀ {body : List Statement}
    {Γ Γ' : StaticScopes}, StatementsTyped R returns Γ body Γ' → Grows Γ Γ'
  | [], _, _, .nil => .refl _
  | _ :: _, _, _, .cons hs hrest => hs.grows.trans hrest.grows

/-! ## Arguments and parameters -/

/-- A call has as many arguments as its signature has parameters. -/
theorem ArgumentsTyped.length_eq {R : Rules} {Γ : StaticScopes} : ∀ {items : List Expr}
    {parameters : List Ty}, ArgumentsTyped R Γ items parameters → items.length = parameters.length
  | [], _, .nil => rfl
  | _ :: _, _, .cons _ _ hrest => congrArg Nat.succ hrest.length_eq

/-- A method has as many parameters as its signature has. -/
theorem ParametersTyped.length_eq : ∀ {parameters : List Parameter} {types : List Ty}
    {Γ Γ' : StaticScopes}, ParametersTyped Γ parameters types Γ' → parameters.length = types.length
  | [], _, _, _, .nil => rfl
  | _ :: _, _, _, _, .cons _ hrest => congrArg Nat.succ hrest.length_eq

/-! ## What is known about calls -/

/-- Calls of checked methods give what their signatures promise. -/
def InvokeSound (M : Meaning) (P : Program) (invoke : Invoke) : Prop :=
  ∀ method signature values (m : Machine), P.checked method signature → m.Globals M P →
    List.Forall₂ (M.has m.world) values signature.parameters →
    Ends (invoke method values) m
      (fun v m' => M.has m'.world v signature.returns ∧ m'.Globals M P ∧
        M.later m.world m'.world)
      (fun halt _ => M.Allows halt)

/-- What is known while a body runs. -/
structure Setting (R : Rules) (M : Meaning) (P : Program) (env : Env) (invoke : Invoke) :
    Prop where
  lawful : M.Lawful R
  bare : ∀ {ty}, R.bare ty → ∀ w, M.has w .nil ty
  objects_eq : env.objects = R.registry.objects
  quiet : ∀ method values, Quiet (invoke method values)
  sound : InvokeSound M P invoke

/-- From the state `m`, an expression has given a value of its type and has led to a state that
    still agrees with the scopes. -/
structure Yields (R : Rules) (M : Meaning) (P : Program) (Γ : StaticScopes) (b k : Nat)
    (m : Machine) (ty : Ty) (v : Value) (m' : Machine) : Prop where
  has : M.has m'.world v ty
  later : M.later m.world m'.world
  agrees : Agrees R M P Γ b k m'

/-- What holds after a computation holds after anything that led to it. -/
theorem Yields.after {R : Rules} {M : Meaning} {P : Program} {Γ : StaticScopes} {b k : Nat}
    {m m₁ m' : Machine} {ty : Ty} {v : Value} (hM : M.Lawful R)
    (hlater : M.later m.world m₁.world) (h : Yields R M P Γ b k m₁ ty v m') :
    Yields R M P Γ b k m ty v m' :=
  ⟨h.has, hM.later_trans hlater h.later, h.agrees⟩

/-! ## Expressions -/

section Expressions

variable {R : Rules} {M : Meaning} {P : Program} {env : Env} {invoke : Invoke}
  {Γ : StaticScopes} {b k : Nat} {m : Machine}

/-- A condition that may be a Boolean has a truth value, or the error is allowed. -/
private theorem toBool_sound (S : Setting R M P env invoke) {v : Value} {ty : Ty}
    (hv : M.has m.world v ty) (hty : Ty.boolean.accepts ty) :
    Ends (ofExcept v.toBool) m (fun _ m' => m' = m) (fun halt _ => M.Allows halt) := by
  rw [ends_ofExcept]
  cases htruth : v.toBool with
  | ok holds => rfl
  | error e => exact S.lawful.toBool (S.lawful.accepts hty hv) htruth

/-- A call with arguments that fit gives what the signature promises. -/
theorem call_sound (S : Setting R M P env invoke) (h : Agrees R M P Γ b k m) {name : String}
    {values : List Value} {binding : FunctionBinding}
    (hf : Γ.function? name values.length = some binding)
    (hvalues : List.Forall₂ (M.has m.world) values binding.signature.parameters) :
    Ends (call invoke name values) m (Yields R M P Γ b k m binding.signature.returns)
      (fun halt _ => M.Allows halt) := by
  obtain ⟨callable, hbound, hmeets⟩ := h.function hf
  unfold call
  rw [ends_bind, ends_findFunction, hbound]
  cases callable with
  | native native =>
    obtain ⟨hmem, hsignature⟩ := hmeets
    rw [← hsignature] at hvalues ⊢
    show Ends (ofNative (native.call values)) m _ _
    rw [ends_ofNative]
    refine (S.lawful.native hmem h.globals.valid hvalues).mono ?_
    intro v w _ hend
    obtain ⟨hv, hvalid, hlater⟩ := hend
    exact ⟨hv, hlater, h.world S.lawful hvalid hlater⟩
  | method method =>
    obtain ⟨returns, hchecked, haccepts⟩ := hmeets
    refine (S.sound method _ values m hchecked h.globals hvalues).mono ?_
    intro v m' hrun hend
    obtain ⟨hv, hglobals, hlater⟩ := hend
    -- What the call has done to the stack is known without types.
    have hkeep := Ends.of_ok (S.quiet method values m h.located.rooted _ (Nat.le_refl _)) hrun
    exact ⟨S.lawful.accepts haccepts hv, hlater, h.keep S.lawful hkeep hglobals hlater⟩

/-- The right operand of `AND` or `OR` decides. -/
private theorem decide_sound (S : Setting R M P env invoke) {right : Expr} {ty : Ty}
    (hty : Ty.boolean.accepts ty)
    (hright : Ends (evaluate env invoke right) m (Yields R M P Γ b k m ty)
      (fun halt _ => M.Allows halt)) :
    Ends (do
        let b ← evaluate env invoke right
        return .boolean (← ofExcept b.toBool)) m
      (Yields R M P Γ b k m .boolean) (fun halt _ => M.Allows halt) := by
  refine hright.bind fun v m₁ _ hv => ?_
  -- The right operand is a boolean by its type, so the conversion cannot fail.
  refine (toBool_sound S hv.has hty).bind ?_
  intro holds m₂ _ hsame
  subst hsame
  exact ⟨S.lawful.boolean, hv.later, hv.agrees⟩

/-- An operator other than `AND` and `OR` combines both operands. -/
private theorem combine_sound (S : Setting R M P env invoke) {operator : Operator} {right : Expr}
    {a : Value} {leftType rightType ty : Ty} (ha : M.has m.world a leftType)
    (htype : operator.type leftType rightType = .ok ty) (hlevel : operator.level ≠ .logical)
    (hright : Ends (evaluate env invoke right) m (Yields R M P Γ b k m rightType)
      (fun halt _ => M.Allows halt)) :
    Ends (do
        let b ← evaluate env invoke right
        ofExcept (Value.binary operator a b)) m
      (Yields R M P Γ b k m ty) (fun halt _ => M.Allows halt) := by
  refine hright.bind fun v m₁ _ hv => ?_
  -- The left operand keeps its type while the right one is evaluated.
  have hbinary := S.lawful.binary (S.lawful.has_later hv.later ha) hv.has htype hlevel
  rw [ends_ofExcept]
  cases hresult : Value.binary operator a v with
  | ok u =>
    rw [hresult] at hbinary
    exact ⟨hbinary, hv.later, hv.agrees⟩
  | error e =>
    rw [hresult] at hbinary
    exact hbinary

mutual

/-- A well-typed expression gives a value of its type. -/
theorem evaluate_sound (S : Setting R M P env invoke) : ∀ (e : Expr) {ty : Ty} {m : Machine},
    ExprTyped R Γ e ty → Agrees R M P Γ b k m →
    Ends (evaluate env invoke e) m (Yields R M P Γ b k m ty) (fun halt _ => M.Allows halt)
  | .literal id value, ty, m, .literal htype _, h => by
    rw [evaluate]
    exact ⟨S.lawful.literal htype, S.lawful.later_refl _, h⟩
  | .group id inner, ty, m, .group _ hinner _, h => by
    rw [evaluate]
    exact evaluate_sound S inner hinner h
  | .binary id operator left right, ty, m, .binary hleft hright htype _, h => by
    rw [evaluate]
    refine (evaluate_sound S left hleft h).bind fun a m₁ _ ha => ?_
    have hright := evaluate_sound S right hright ha.agrees
    -- It is enough to follow the run from the state after the left operand.
    apply Ends.mono (Q := Yields R M P Γ b k m₁ ty) ?_
      (fun _ _ _ hy => hy.after S.lawful ha.later)
    cases operator with
    | and =>
      -- The right operand is evaluated only if the left one does not decide.
      obtain ⟨hl, hr, rfl⟩ := Operator.type_of_boolean (.inl rfl) htype
      refine (toBool_sound S ha.has hl).bind ?_
      intro holds m₂ _ hsame
      subst hsame
      split
      · exact decide_sound S hr hright
      · exact ⟨S.lawful.boolean, S.lawful.later_refl _, ha.agrees⟩
    | or =>
      obtain ⟨hl, hr, rfl⟩ := Operator.type_of_boolean (.inl rfl) htype
      refine (toBool_sound S ha.has hl).bind ?_
      intro holds m₂ _ hsame
      subst hsame
      split
      · exact ⟨S.lawful.boolean, S.lawful.later_refl _, ha.agrees⟩
      · exact decide_sound S hr hright
    | _ => exact combine_sound S ha.has htype (by decide) hright
  | .var id name, _, m, .var hlookup _ _, h => by
    -- A variable that the scopes of the check know has a value of its type in the machine.
    obtain ⟨v, hread, hv⟩ := h.read hlookup
    rw [evaluate, ends_readVariable, hread]
    exact ⟨hv, S.lawful.later_refl _, h⟩
  | .field id receiver name, ty, m, .field hreceiver hfield _ _, h => by
    rw [evaluate]
    refine (evaluate_sound S receiver hreceiver h).bind fun v m₁ _ hv => ?_
    rw [ends_ofNative]
    refine (S.lawful.readField hreceiver.noted hv.has hfield hv.agrees.globals.valid).mono ?_
    intro u w _ hend
    obtain ⟨hu, hvalid, hlater⟩ := hend
    exact Yields.after S.lawful hv.later ⟨hu, hlater, hv.agrees.world S.lawful hvalid hlater⟩
  | .call id name items, _, m, .call hf hitems _ _, h => by
    rw [evaluate]
    refine (evaluateAll_sound S items hitems h).bind ?_
    intro values m₁ _ hend
    obtain ⟨hvalues, hlater, h₁⟩ := hend
    -- The method was looked up by the number of the arguments, which is that of their values.
    rw [hitems.length_eq, ← hvalues.length_eq] at hf
    exact (call_sound S h₁ hf hvalues).mono (fun _ _ _ hy => hy.after S.lawful hlater)
  | .invoke id receiver name items, _, m, .invoke hreceiver hmethod hitems _ _, h => by
    rw [evaluate]
    refine (evaluate_sound S receiver hreceiver h).bind fun v m₁ _ hv => ?_
    -- The method is looked up in the type on one side and in the value on the other.
    have hfound := S.lawful.method hreceiver.noted hv.has hmethod
    rw [ends_bind, ends_ofExcept, S.objects_eq]
    cases hdynamic : v.method R.registry.objects name (items.length + 1) with
    | error e =>
      rw [hdynamic] at hfound
      exact hfound
    | ok native =>
      rw [hdynamic] at hfound
      show Ends (evaluateAll env invoke items >>= _) m₁ _ _
      refine (evaluateAll_sound S items hitems hv.agrees).bind ?_
      intro values m₂ _ hend
      obtain ⟨hvalues, hlater, h₂⟩ := hend
      rw [ends_ofNative]
      -- The arguments may have changed the world since the receiver was evaluated.
      refine (hfound m₂.world values hlater h₂.globals.valid hvalues).mono ?_
      intro u w _ hend
      obtain ⟨hu, hvalid, hlater'⟩ := hend
      exact Yields.after S.lawful (S.lawful.later_trans hv.later hlater)
        ⟨hu, hlater', h₂.world S.lawful hvalid hlater'⟩

/-- Well-typed arguments give values of the types of the parameters. -/
theorem evaluateAll_sound (S : Setting R M P env invoke) : ∀ (items : List Expr)
    {parameters : List Ty} {m : Machine},
    ArgumentsTyped R Γ items parameters → Agrees R M P Γ b k m →
    Ends (evaluateAll env invoke items) m
      (fun values m' => List.Forall₂ (M.has m'.world) values parameters ∧
        M.later m.world m'.world ∧ Agrees R M P Γ b k m')
      (fun halt _ => M.Allows halt)
  | [], _, m, .nil, h => by
    rw [evaluateAll]
    exact ⟨.nil, S.lawful.later_refl _, h⟩
  | e :: rest, _, m, .cons he haccepts hrest, h => by
    rw [evaluateAll]
    refine (evaluate_sound S e he h).bind fun v m₁ _ hv => ?_
    refine (evaluateAll_sound S rest hrest hv.agrees).bind ?_
    intro values m₂ _ hend
    obtain ⟨hvalues, hlater, h₂⟩ := hend
    -- The first value has to keep its type while the others are evaluated.
    have hfirst := S.lawful.has_later hlater (S.lawful.accepts haccepts hv.has)
    exact ⟨.cons hfirst hvalues, S.lawful.later_trans hv.later hlater, h₂⟩

end

end Expressions

/-! ## Statements -/

/-- From the state `m`, statements have led to a state that agrees with the scopes behind them,
    or have returned a value of the type to return. -/
def Completes (R : Rules) (M : Meaning) (P : Program) (Γ : StaticScopes) (returns : Ty)
    (b k : Nat) (m : Machine) : Completion → Machine → Prop
  | .normal, m' => M.later m.world m'.world ∧ Agrees R M P Γ b k m'
  | .returned v, m' => M.later m.world m'.world ∧ m'.Globals M P ∧ M.has m'.world v returns

section Statements

variable {R : Rules} {M : Meaning} {P : Program} {env : Env} {invoke : Invoke}
  {Γ Γ' Γ₁ : StaticScopes} {returns : Ty} {b k : Nat} {m m₁ : Machine}

/-- What statements complete with from a later world, they complete with from the earlier one. -/
theorem Completes.after (hM : M.Lawful R) (hlater : M.later m.world m₁.world)
    {completion : Completion} {m' : Machine}
    (h : Completes R M P Γ returns b k m₁ completion m') :
    Completes R M P Γ returns b k m completion m' := by
  cases completion with
  | normal => exact ⟨hM.later_trans hlater h.1, h.2⟩
  | returned v => exact ⟨hM.later_trans hlater h.1, h.2⟩

/-- A declaration comes down to the definition of a variable of the right type. -/
theorem declare_sound (S : Setting R M P env invoke) (h : Agrees R M P Γ b k m)
    {d : Declaration} {ty : Ty} (hinitial : InitialTyped R Γ d.typeName d.initializer ty)
    {Q : Unit → Machine → Prop} {E : Halt → Machine → Prop}
    (hfails : ∀ halt m', M.Allows halt → E halt m')
    (hdefine : ∀ v m', Yields R M P Γ b k m ty v m' → Ends (defineVariable d.name v) m' Q E) :
    Ends (declare env invoke d) m Q E := by
  -- Annotated or not, an initial value has the type that the variable gets.
  have hsome : ∀ {e actual}, ExprTyped R Γ e actual → ty.accepts actual →
      Ends (evaluate env invoke e >>= defineVariable d.name) m Q E := by
    intro e actual he haccepts
    rw [ends_bind]
    refine (evaluate_sound S e he h).imp (fun v m' _ hv => ?_) (fun halt m' _ => hfails halt m')
    exact hdefine v m' ⟨S.lawful.accepts haccepts hv.has, hv.later, hv.agrees⟩
  unfold declare
  generalize d.typeName = typeName at hinitial
  generalize d.initializer = initializer at hinitial
  cases hinitial with
  | annotated _ he haccepts => exact hsome he haccepts
  | bare _ hbare => exact hdefine .nil m ⟨S.bare hbare _, S.lawful.later_refl _, h⟩
  | inferred he => exact hsome he (by simp [Ty.accepts, Ty.same])

/-- Both sides define a local variable. -/
theorem defineVariable_sound (h : Agrees R M P Γ b (k + 1) m) {name : String} {ty : Ty}
    {v : Value} (hd : Γ.defineVariable name ⟨name, ty⟩ = .ok Γ') (hv : M.has m.world v ty) :
    Ends (defineVariable name v) m
      (fun _ m' => m'.world = m.world ∧ Agrees R M P Γ' b (k + 1) m')
      (fun halt _ => M.Allows halt) := by
  obtain ⟨scopes, hdefine, h'⟩ := h.define hd hv
  rw [ends_defineVariable, hdefine]
  exact ⟨rfl, h'⟩

/-- A well-typed assignment stores a value of the right type. -/
theorem assign_sound (S : Setting R M P env invoke) (h : Agrees R M P Γ b k m)
    {target value : Expr} {targetType valueType : Ty} (haccess : target.isAccess = true)
    (htarget : ExprTyped R Γ target targetType) (hvalue : ExprTyped R Γ value valueType)
    (haccepts : targetType.accepts valueType) :
    Ends (assign env invoke target value) m
      (fun _ m' => M.later m.world m'.world ∧ Agrees R M P Γ b k m')
      (fun halt _ => M.Allows halt) := by
  unfold assign
  cases htarget with
  | var hlookup _ _ =>
    refine (evaluate_sound S value hvalue h).bind fun v m₁ _ hv => ?_
    rw [lookup?, Option.map_eq_some_iff] at hlookup
    -- The place is looked up after the value has been evaluated.
    obtain ⟨⟨i, _⟩, hsearch, rfl⟩ := hlookup
    obtain ⟨j, _, hj, hfound, hplace, _⟩ := hv.agrees.search hsearch
    rw [ends_writeVariable, hplace]
    exact ⟨hv.later, hv.agrees.store hj hfound (S.lawful.accepts haccepts hv.has)⟩
  | field hreceiver hfield _ _ =>
    refine (evaluate_sound S _ hreceiver h).bind fun object m₁ _ ho => ?_
    refine (evaluate_sound S value hvalue ho.agrees).bind fun v m₂ _ hv => ?_
    have hobject := S.lawful.has_later hv.later ho.has
    rw [ends_ofNative]
    refine (S.lawful.writeField hreceiver.noted hobject hfield hv.agrees.globals.valid
      (S.lawful.accepts haccepts hv.has)).mono ?_
    intro _ w _ hend
    obtain ⟨hvalid, hlater⟩ := hend
    exact ⟨S.lawful.later_trans (S.lawful.later_trans ho.later hv.later) hlater,
      hv.agrees.world S.lawful hvalid hlater⟩
  | _ => cases haccess

/-- A body that is run in a block of its own. -/
private theorem inBlock_sound {body : Exec Completion} (hbody : Tidy body) (hΓ : Grows Γ.push Γ₁)
    (h : Agrees R M P Γ b (k + 1) m)
    (hends : Ends body { m with scopes := m.scopes.push }
      (Completes R M P Γ₁ returns b (k + 2) m) (fun halt _ => M.Allows halt)) :
    Ends (inBlock body) m (Completes R M P Γ returns b (k + 1) m)
      (fun halt _ => M.Allows halt) := by
  show Ends (inScope m.scopes.current body) m _ _
  rw [ends_inScope]
  refine hends.mono fun completion m' hrun hc => ?_
  -- That the frame of the block is on top again is a matter of the stack alone.
  have hshape := (Ends.of_ok (hbody _ b (k + 1) h.located.push) hrun).shape
  cases completion with
  | normal => exact ⟨hc.1, h.pop hc.2 hΓ hshape⟩
  | returned v => exact ⟨hc.1, hc.2.1.leave hshape h.located.rooted m'.calls, hc.2.2⟩

/-- A round of a `FOR` whose body is sound. -/
theorem forRound_sound (S : Setting R M P env invoke) {name : String} {body : List Statement}
    (hdefine : Γ.push.defineVariable name ⟨name, .integer⟩ = .ok Γ₁)
    (htyped : StatementsTyped R returns Γ₁ body Γ')
    (hbody : ∀ m, Agrees R M P Γ₁ b (k + 2) m →
      Ends (statements env invoke body) m (Completes R M P Γ' returns b (k + 2) m)
        (fun halt _ => M.Allows halt))
    (i : Int) (h : Agrees R M P Γ b (k + 1) m) :
    Ends (inBlock do
        defineVariable name (.integer i)
        statements env invoke body) m
      (Completes R M P Γ returns b (k + 1) m) (fun halt _ => M.Allows halt) := by
  -- The body leaves its block as it was entered, so the scopes agree again behind it.
  have htidy := tidy_statements env S.quiet body
  refine inBlock_sound ((tidy_defineVariable _ _).bind fun _ => htidy)
    ((Grows.of_defineVariable hdefine).trans htyped.grows) h ?_
  refine (defineVariable_sound h.push hdefine S.lawful.integer).bind ?_
  intro _ m₁ _ hend
  obtain ⟨hworld, h₁⟩ := hend
  refine (hbody m₁ h₁).mono fun _ _ _ h' => ?_
  exact h'.after S.lawful (by rw [hworld]; exact S.lawful.later_refl _)

/-- A loop whose rounds all keep the scopes keeps them. -/
theorem forRounds_sound (hM : M.Lawful R) {body : Int → Exec Completion}
    (hbody : ∀ i m, Agrees R M P Γ b k m →
      Ends (body i) m (Completes R M P Γ returns b k m) (fun halt _ => M.Allows halt))
    (n : Nat) (i : Int) (h : Agrees R M P Γ b k m) :
    Ends (forRounds body i n) m (Completes R M P Γ returns b k m)
      (fun halt _ => M.Allows halt) := by
  induction n generalizing i m with
  | zero => exact ⟨hM.later_refl _, h⟩
  | succ n ih =>
    rw [forRounds]
    refine (hbody i m h).bind fun completion m₁ _ hc => ?_
    -- A round that returns ends the loop.
    cases completion with
    | normal =>
      exact (ih (i + 1) hc.2).mono (fun _ _ _ h' => h'.after hM hc.1)
    | returned v => exact hc

/-- A loop whose condition and rounds all keep the scopes keeps them. -/
theorem whileRounds_sound (hM : M.Lawful R) {test : Exec Bool} {body : Exec Completion}
    (htest : ∀ m, Agrees R M P Γ b k m →
      Ends test m (fun _ m' => M.later m.world m'.world ∧ Agrees R M P Γ b k m')
        (fun halt _ => M.Allows halt))
    (hbody : ∀ m, Agrees R M P Γ b k m →
      Ends body m (Completes R M P Γ returns b k m) (fun halt _ => M.Allows halt))
    (n : Nat) (h : Agrees R M P Γ b k m) :
    Ends (whileRounds test body n) m (Completes R M P Γ returns b k m)
      (fun halt _ => M.Allows halt) := by
  -- Induction on the rounds that are left; a loop that would need more of them gives no result, so
  -- nothing is asked of it.
  induction n generalizing m with
  | zero => trivial
  | succ n ih =>
    rw [whileRounds]
    refine (htest m h).bind ?_
    intro holds m₁ _ hend
    obtain ⟨hlater, h₁⟩ := hend
    split
    · rw [ends_bind]
      refine (hbody m₁ h₁).mono fun completion m₂ _ hc => ?_
      have hc := hc.after hM hlater
      cases completion with
      | normal =>
        -- The next round starts where this one has ended.
        exact (ih hc.2).mono (fun _ _ _ h' => h'.after hM hc.1)
      | returned v => exact hc
    · exact ⟨hlater, h₁⟩

/-- A condition has a truth value. -/
theorem condition_sound (S : Setting R M P env invoke) {condition : Expr} {ty : Ty}
    (hc : ExprTyped R Γ condition ty) (hty : Ty.boolean.accepts ty)
    (h : Agrees R M P Γ b k m) :
    Ends (do
        let v ← evaluate env invoke condition
        ofExcept v.toBool) m
      (fun _ m' => M.later m.world m'.world ∧ Agrees R M P Γ b k m')
      (fun halt _ => M.Allows halt) := by
  refine (evaluate_sound S condition hc h).bind fun v m₁ _ hv => ?_
  refine (toBool_sound S hv.has hty).mono ?_
  intro holds m₂ _ hsame
  subst hsame
  exact ⟨hv.later, hv.agrees⟩

mutual

/-- A well-typed statement leads to a state that agrees with the scopes behind it. -/
theorem statement_sound (S : Setting R M P env invoke) : ∀ (s : Statement) {Γ Γ' : StaticScopes}
    {k : Nat} {m : Machine}, StatementTyped R returns Γ s Γ' → Agrees R M P Γ b (k + 1) m →
    Ends (statement env invoke s) m (Completes R M P Γ' returns b (k + 1) m)
      (fun halt _ => M.Allows halt)
  | .expression value, Γ, _, k, m, .expression hvalue, h => by
    rw [statement, ends_bind, ends_discard]
    exact (evaluate_sound S value hvalue h).mono (fun _ _ _ hv => ⟨hv.later, hv.agrees⟩)
  | .declare d, Γ, Γ', k, m, .declare hd, h => by
    obtain ⟨hinitial, hdefine, _⟩ := hd
    rw [statement, ends_bind]
    refine declare_sound S h hinitial (fun _ _ h => h) fun v m' hv => ?_
    -- The check found the name free, so it is free in the machine.
    refine (defineVariable_sound hv.agrees hdefine hv.has).mono ?_
    intro _ m'' _ hend
    obtain ⟨hworld, h''⟩ := hend
    exact ⟨hworld ▸ hv.later, h''⟩
  | .assign target value, Γ, _, k, m, .assign haccess htarget hvalue haccepts, h => by
    rw [statement, ends_bind]
    exact assign_sound S h haccess htarget hvalue haccepts
  | .ifElse condition thenBody elseBody, Γ, _, k, m, .ifElse hc hty hthen helse, h => by
    rw [statement]
    have htest := condition_sound S hc hty h
    rw [ends_bind] at htest ⊢
    refine htest.mono fun v m₁ _ hv => ?_
    refine hv.bind ?_
    intro holds m₂ _ hend
    -- Either branch leaves the scopes that the condition left.
    obtain ⟨hlater, h₂⟩ := hend
    split
    · have hblock := inBlock_sound (tidy_statements env S.quiet thenBody) hthen.grows h₂
        (statements_sound S thenBody hthen h₂.push)
      exact hblock.mono (fun _ _ _ h' => h'.after S.lawful hlater)
    · have hblock := inBlock_sound (tidy_statements env S.quiet elseBody) helse.grows h₂
        (statements_sound S elseBody helse h₂.push)
      exact hblock.mono (fun _ _ _ h' => h'.after S.lawful hlater)
  | .forIn name iterable body, Γ, _, k, m, .forIn hi hty hdefine hbody, h => by
    rw [statement]
    refine (evaluate_sound S iterable hi h).bind fun v m₁ _ hv => ?_
    cases helements : v.elements? with
    | none => exact S.lawful.elements (S.lawful.accepts hty hv.has) helements
    | some range =>
      -- Every round starts and ends in the scopes of the statement.
      refine (forRounds_sound S.lawful (fun i m h => ?_) range.2 range.1 hv.agrees).mono
        (fun _ _ _ h' => h'.after S.lawful hv.later)
      exact forRound_sound S hdefine hbody (fun m h => statements_sound S body hbody h) i h
  | .whileDo condition body, Γ, _, k, m, .whileDo hc hty hbody, h => by
    rw [statement]
    exact whileRounds_sound S.lawful (fun m h => condition_sound S hc hty h)
      (fun m h => inBlock_sound (tidy_statements env S.quiet body) hbody.grows h
        (statements_sound S body hbody h.push)) env.rounds h
  | .returns value, Γ, _, k, m, .returns hvalue haccepts, h => by
    rw [statement]
    refine (evaluate_sound S value hvalue h).bind fun v m₁ _ hv => ?_
    -- The blocks around are left by the return, so only the global scopes are known afterwards.
    exact ⟨hv.later, hv.agrees.globals, S.lawful.accepts haccepts hv.has⟩

/-- Well-typed statements lead to a state that agrees with the scopes behind them. -/
theorem statements_sound (S : Setting R M P env invoke) : ∀ (body : List Statement)
    {Γ Γ' : StaticScopes} {k : Nat} {m : Machine}, StatementsTyped R returns Γ body Γ' →
    Agrees R M P Γ b (k + 1) m →
    Ends (statements env invoke body) m (Completes R M P Γ' returns b (k + 1) m)
      (fun halt _ => M.Allows halt)
  | [], Γ, _, k, m, .nil, h => by
    rw [statements]
    exact ⟨S.lawful.later_refl _, h⟩
  | s :: rest, Γ, Γ', k, m, .cons hs hrest, h => by
    rw [statements]
    refine (statement_sound S s hs h).bind fun completion m₁ _ hc => ?_
    -- So does a statement that returns.
    cases completion with
    | normal =>
      exact (statements_sound S rest hrest hc.2).mono (fun _ _ _ h' => h'.after S.lawful hc.1)
    | returned v => exact hc

end

/-- Well-typed statements in a block of their own. -/
theorem block_sound (S : Setting R M P env invoke) (body : List Statement)
    {Γ Γ₁ : StaticScopes} {k : Nat} {m : Machine}
    (hbody : StatementsTyped R returns Γ.push body Γ₁) (h : Agrees R M P Γ b (k + 1) m) :
    Ends (inBlock (statements env invoke body)) m (Completes R M P Γ returns b (k + 1) m)
      (fun halt _ => M.Allows halt) :=
  inBlock_sound (tidy_statements env S.quiet body) hbody.grows h
    (statements_sound S body hbody h.push)

end Statements

/-! ## Calls -/

section Calls

variable {R : Rules} {M : Meaning} {P : Program} {env : Env}

/-- Parameters are defined with values of their types. -/
theorem defineParameters_sound {b k : Nat} {parameters : List Parameter} {types : List Ty}
    {values : List Value} {Γ Γ' : StaticScopes} {m : Machine}
    (ht : ParametersTyped Γ parameters types Γ') (h : Agrees R M P Γ b (k + 1) m)
    (hvalues : List.Forall₂ (M.has m.world) values types) :
    Ends (defineParameters parameters values) m
      (fun _ m' => m'.world = m.world ∧ Agrees R M P Γ' b (k + 1) m')
      (fun halt _ => M.Allows halt) := by
  -- Induction along the typing of the parameters, which takes the values one by one.
  induction ht generalizing values m with
  | nil =>
    cases hvalues
    exact ⟨rfl, h⟩
  | cons hdefine _ ih =>
    cases hvalues with
    | cons hv hvs =>
      rw [defineParameters]
      refine (defineVariable_sound h hdefine hv).bind ?_
      intro _ m₁ _ hend
      obtain ⟨hworld, h₁⟩ := hend
      -- Defining a variable changes no object, so the values that are left still have their types.
      rw [← hworld] at hvs ⊢
      exact ih h₁ hvs

/-- Statements that end with a `RETURN` return. -/
private theorem statements_return (env : Env) (invoke : Invoke) {value : Expr} :
    ∀ (body : List Statement) (m : Machine), body.getLast? = some (.returns value) →
      Ends (statements env invoke body) m (fun completion _ => ∃ v, completion = .returned v)
        (fun _ _ => True)
  | [], m, h => nomatch h
  | s :: rest, m, h => by
    rw [statements, ends_bind]
    unfold Ends
    cases hrun : statement env invoke s m with
    | error halt m₁ => trivial
    | ok completion m₁ =>
      cases completion with
      | returned v => exact ⟨v, rfl⟩
      | normal =>
        cases rest with
        | cons s' rest => exact statements_return env invoke (s' :: rest) m₁ h
        | nil =>
          -- The last statement is the `RETURN`, which cannot have ended normally.
          cases h
          rw [statement] at hrun
          obtain ⟨v, m₂, _, hreturn⟩ := exists_of_bind_eq_ok hrun
          exact nomatch hreturn

/-- The body of a checked method, run in the frame of its call, gives what the signature
    promises. -/
private theorem body_sound {invoke : Invoke} (S : Setting R M P env invoke) (hP : P.Justified R M)
    {method : Method} {signature : Signature} {values : List Value} {m : Machine}
    (hchecked : P.checked method signature) (hglobals : m.Globals M P)
    (hvalues : List.Forall₂ (M.has m.world) values signature.parameters) :
    Ends (do
        defineParameters method.parameters values
        statements env invoke method.body)
      { m with calls := m.calls + 1, scopes := m.scopes.pushChildOf global }
      (fun completion m' => M.has m'.world completion.value signature.returns ∧
        m'.Globals M P ∧ M.later m.world m'.world)
      (fun halt _ => M.Allows halt) := by
  -- The body was checked in scopes of its own, which the program bears out.
  obtain ⟨Γ₁, Γ₂, Γ₃, hknows, hparameters, hbody⟩ := (hP method signature hchecked).body
  have hstart : Agrees R M P Γ₁.push m.scopes.frames.size 1
      { m with calls := m.calls + 1, scopes := m.scopes.pushChildOf global } :=
    .call hglobals hknows
  refine (defineParameters_sound hparameters hstart hvalues).bind ?_
  intro _ m₁ _ hend
  obtain ⟨hworld, h₁⟩ := hend
  refine (statements_sound S method.body hbody h₁).mono fun completion m₂ hrun hc => ?_
  cases completion with
  | returned v => exact ⟨hc.2.2, hc.2.1, hworld ▸ hc.1⟩
  | normal =>
    refine ⟨?_, hc.2.globals, hworld ▸ hc.1⟩
    -- Either the end cannot be reached, or `NIL` will do.
    obtain ⟨value, hlast⟩ | hnil := (hP method signature hchecked).fallsOff
    · obtain ⟨v, hv⟩ := (statements_return env _ method.body m₁ hlast).of_ok hrun
      exact nomatch hv
    · exact hnil _

/-- Calls of checked methods give what their signatures promise, however deep they go. -/
theorem invokeSound_invokeWithin (hM : M.Lawful R)
    (hbare : ∀ {ty}, R.bare ty → ∀ w, M.has w .nil ty)
    (henv : env.objects = R.registry.objects) (hP : P.Justified R M) (n : Nat) :
    InvokeSound M P (invokeWithin env n) := by
  induction n with
  | zero => exact fun method _ _ _ _ _ _ => hM.depth
  | succ n ih =>
    intro method signature values m hchecked hglobals hvalues
    have S : Setting R M P env (invokeWithin env n) :=
      ⟨hM, hbare, henv, quiet_invokeWithin env n, ih⟩
    -- The caller gets its stack back whether or not the types are right.
    have htidy := tidy_methodBody env S.quiet method values
    rw [invokeWithin, ends_bind, ends_get]
    split
    · exact hM.depth
    · rw [ends_bind, ends_counted, ends_inScope]
      refine (body_sound S hP hchecked hglobals hvalues).mono ?_
      intro completion m' hrun hend
      obtain ⟨hv, hglobals', hlater⟩ := hend
      have hshape := (Ends.of_ok (htidy _ _ 0 hglobals.rooted.enterCall) hrun).shape
      exact ⟨hv, hglobals'.leave hshape hglobals.rooted _, hlater⟩

end Calls

end LetLang
