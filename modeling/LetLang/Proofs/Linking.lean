import LetLang.Proofs.Activation
import LetLang.Proofs.Soundness

/-! # Whole runs of well-typed programs

The analysis and the run go through the top of a program in the same order, natives first,
then global variables, then methods, and define the same names on the way.  `AtTop` relates the
two at each point, and `Launched.execute` follows a run of a well-typed program to its end. -/

namespace LetLang

open Scopes Exec

/-! ## Programs that grow -/

namespace Program

/-- The second program has all functions of the first. -/
structure Le (P P' : Program) : Prop where
  vars : P'.vars = P.vars
  functions : ∀ key callable, P.functions key = some callable → P'.functions key = some callable
  checked : ∀ m signature, P.checked m signature → P'.checked m signature

/-- The program with one more function, and methods that are checked from now on. -/
def bind (P : Program) (key : FunctionKey) (callable : Callable)
    (checked : Method → Signature → Prop) : Program where
  vars := P.vars
  functions := fun key' => if key' = key then some callable else P.functions key'
  checked := fun m signature => P.checked m signature ∨ checked m signature

/-- No method has been checked yet. -/
def Fresh (P : Program) : Prop := ∀ m signature, ¬P.checked m signature

variable {P P' : Program} {R : Rules} {k : Nat} {Γ : StaticScopes}

/-- One more function under a free name makes a larger program. -/
private theorem le_bind {key : FunctionKey} (hfree : P.functions key = none) (callable : Callable)
    (checked : Method → Signature → Prop) : P.Le (P.bind key callable checked) where
  vars := rfl
  functions := fun key' other h => by
    -- The key was free, so no other function had it.
    have hne : key' ≠ key := by
      rintro rfl
      rw [hfree] at h
      exact nomatch h
    exact (if_neg hne).trans h
  checked := fun _ _ h => .inl h

/-- What meets a signature meets it in every larger program. -/
theorem Meets.mono (h : P.Le P') {signature : Signature} {callable : Callable}
    (hm : P.Meets R signature callable) : P'.Meets R signature callable := by
  cases callable with
  | native native => exact hm
  | method method =>
    obtain ⟨returns, hchecked, haccepts⟩ := hm
    exact ⟨returns, h.checked _ _ hchecked, haccepts⟩

/-- What the analysis knows of a program is true of every larger one. -/
theorem Knows.mono (h : P.Le P') (hk : P.Knows R k Γ) : P'.Knows R k Γ where
  located := hk.located
  vars := fun name => by rw [h.vars]; exact hk.vars name
  functions := fun key binding hf => by
    obtain ⟨callable, hbound, hmeets⟩ := hk.functions key binding hf
    exact ⟨callable, h.functions key callable hbound, hmeets.mono h⟩

/-- What justifies the signature of a method does so in any longer program. -/
theorem Justifies.mono {M : Meaning} (h : P.Le P') {m : Method} {signature : Signature}
    (hj : P.Justifies R M m signature) : P'.Justifies R M m signature where
  body := by
    obtain ⟨Γ₁, Γ₂, Γ₃, hknows, hbody⟩ := hj.body
    exact ⟨Γ₁, Γ₂, Γ₃, hknows.mono h, hbody⟩
  fallsOff := hj.fallsOff

/-- The analysis learns of a function that the program has. -/
theorem Knows.redefineFunction (hk : P.Knows R 0 Γ) {name : String} {arity : Nat}
    {callable : Callable} (hbound : P.functions (name, arity) = some callable)
    {binding : FunctionBinding} (hmeets : P.Meets R binding.signature callable) :
    P.Knows R 0 (Γ.redefineFunction name arity binding) where
  located := hk.located.redefineFunction _ _ _
  vars := fun var => (found_var_redefineFunction Γ _ _ _ var 0).trans (hk.vars var)
  -- Only the name just defined is bound to something new.
  functions := fun key binding' hf => by
    rw [found_function_redefineFunction hk.located] at hf
    split at hf
    · rename_i hkey
      cases hf
      exact ⟨callable, hkey ▸ hbound, hmeets⟩
    · exact hk.functions key binding' hf

end Program

/-! ## Between two definitions -/

/-- Analysis and run stand between two definitions at the top of a program: they agree, they
    have defined the same functions, and all methods so far are justified. -/
structure AtTop (R : Rules) (M : Meaning) (P : Program) (Γ : StaticScopes) (m : Machine) :
    Prop where
  agrees : Agrees R M P Γ 1 0 m
  keys : ∀ key, Γ.found (·.functions.get? key) 0 = none → P.functions key = none
  justified : P.Justified R M

namespace AtTop

variable {R : Rules} {M : Meaning} {P : Program} {Γ Γ₁ Γ' : StaticScopes} {m : Machine}

/-- A fresh stack, before anything is defined. -/
theorem new {w : World} (hw : M.valid w) :
    AtTop R M ⟨fun _ => none, fun _ => none, fun _ _ => False⟩ Scopes.new ⟨Scopes.new, w, 0⟩ where
  agrees := {
    knows := ⟨located_new, fun _ => rfl, fun _ _ h => nomatch h⟩
    located := located_new
    globals := ⟨located_new.rooted, fun _ => .none, fun _ => rfl, hw⟩
    locals := fun j hj => by omega }
  keys := fun _ _ => rfl
  justified := fun _ _ h => h.elim

/-- The analysis learns more about a function that is bound. -/
theorem redefineFunction (h : AtTop R M P Γ m) {name : String} {arity : Nat}
    {callable : Callable} (hbound : P.functions (name, arity) = some callable)
    {binding : FunctionBinding} (hmeets : P.Meets R binding.signature callable) :
    AtTop R M P (Γ.redefineFunction name arity binding) m where
  agrees := { h.agrees with
    knows := h.agrees.knows.redefineFunction hbound hmeets
    locals := fun j hj => by omega }
  -- A name that is free afterwards was free before.
  keys := fun key hkey => by
    rw [found_function_redefineFunction h.agrees.knows.located] at hkey
    split at hkey
    · exact nomatch hkey
    · exact h.keys key hkey
  justified := h.justified

/-- Both sides define a function, under a key that is free. -/
theorem defineFunction (h : AtTop R M P Γ m) {name : String} {arity : Nat}
    {binding : FunctionBinding} (hd : Γ.defineFunction name arity binding = .ok Γ₁)
    {callable : Callable} {checked : Method → Signature → Prop}
    (hmeets : (P.bind (name, arity) callable checked).Meets R binding.signature callable)
    (hnew : ∀ m signature, checked m signature →
      (P.bind (name, arity) callable checked).Knows R 0 Γ₁ →
      (P.bind (name, arity) callable checked).Justifies R M m signature) :
    ∃ scopes, m.scopes.defineFunction name arity callable = .ok scopes ∧
      AtTop R M (P.bind (name, arity) callable checked) Γ₁ { m with scopes := scopes } := by
  obtain ⟨hnone, rfl⟩ := defineFunction_eq_ok_iff.mp hd
  rw [h.agrees.knows.located.current_eq, place_zero] at hnone
  -- A key that is free for the analysis is free for the run.
  have hfree := h.keys (name, arity) hnone
  have hle := Program.le_bind hfree callable checked
  have hknows := (h.agrees.knows.mono hle).redefineFunction (if_pos rfl) hmeets
  have hlocated := h.agrees.located.redefineFunction name arity callable
  have hfound : m.scopes.found (·.functions.get? (name, arity)) m.scopes.current = none := by
    rw [h.agrees.located.current_eq, place_zero, h.agrees.globals.functions]
    exact hfree
  refine ⟨_, defineFunction_eq_ok_iff.mpr ⟨hfound, rfl⟩, ⟨hknows, hlocated, ⟨hlocated.rooted,
    fun var => ?_, fun key => ?_, h.agrees.globals.valid⟩, fun j hj => by omega⟩,
    fun key hkey => ?_, fun m' signature hchecked => ?_⟩
  · show M.Holds m.world (P.vars var) _
    rw [found_var_redefineFunction]
    exact h.agrees.globals.vars var
  · show (m.scopes.redefineFunction name arity callable).found _ 0 = _
    rw [found_function_redefineFunction h.agrees.located, h.agrees.globals.functions]
    rfl
  · rw [found_function_redefineFunction h.agrees.knows.located] at hkey
    split at hkey
    · exact nomatch hkey
    · rename_i hne
      exact (if_neg hne).trans (h.keys key hkey)
  · obtain hold | hchecked := hchecked
    · exact (h.justified m' signature hold).mono hle
    · exact hnew m' signature hchecked hknows

/-- Both sides define a native function. -/
theorem native (h : AtTop R M P Γ m) {native : Native} (hmem : native ∈ R.registry.functions)
    (hd : Γ.defineFunction native.name native.signature.arity ⟨native.name, native.signature⟩ =
      .ok Γ') :
    ∃ scopes, m.scopes.defineFunction native.name native.signature.arity (.native native) =
        .ok scopes ∧
      AtTop R M (P.bind (native.name, native.signature.arity) (.native native) fun _ _ => False)
        Γ' { m with scopes := scopes } :=
  h.defineFunction hd ⟨hmem, rfl⟩ fun _ _ h => h.elim

/-- Both sides define a method. -/
theorem method (h : AtTop R M P Γ m) {method : Method} {signature : Signature}
    (hm : MethodTyped R Γ method signature Γ')
    (hfalls : R.function method.id ⟨method.name, signature⟩ →
      method.EndsInReturn ∨ ∀ w, M.has w .nil signature.returns) :
    ∃ P' scopes, m.scopes.defineFunction method.name method.parameters.length (.method method) =
        .ok scopes ∧ AtTop R M P' Γ' { m with scopes := scopes } := by
  obtain ⟨-, -, -, hd, haccepts, hparameters, hbody, hnoted⟩ := hm
  rename_i parameters provisional returns Γ₁ Γ₂ Γ₃
  -- From now on the method counts as checked, also for the calls in its own body.
  let checked : Method → Signature → Prop := fun m' signature =>
    m' = method ∧ signature = ⟨parameters, returns⟩
  have hprovisional : (P.bind (method.name, parameters.length) (.method method) checked).Meets R
      ⟨parameters, provisional⟩ (.method method) := ⟨returns, .inr ⟨rfl, rfl⟩, haccepts⟩
  have hfinal : (P.bind (method.name, parameters.length) (.method method) checked).Meets R
      ⟨parameters, returns⟩ (.method method) :=
    ⟨returns, .inr ⟨rfl, rfl⟩, by simp [Ty.accepts, Ty.same]⟩
  obtain ⟨scopes, hdefine, htop⟩ := h.defineFunction hd hprovisional (by
    rintro _ _ ⟨rfl, rfl⟩ hknows
    exact ⟨⟨Γ₁, Γ₂, Γ₃, hknows, hparameters, hbody⟩, hfalls hnoted⟩)
  rw [hparameters.length_eq]
  exact ⟨_, scopes, hdefine, htop.redefineFunction (if_pos rfl) hfinal⟩

/-- Both sides define a global variable, as long as there are no methods. -/
theorem defineVariable (h : AtTop R M P Γ m) (hfresh : P.Fresh) {name : String} {ty : Ty}
    {v : Value} (hd : Γ.defineVariable name ⟨name, ty⟩ = .ok Γ') (hv : M.has m.world v ty) :
    ∃ P' scopes, m.scopes.defineVariable name v = .ok scopes ∧ P'.Fresh ∧
      AtTop R M P' Γ' { m with scopes := scopes } := by
  obtain ⟨hnone, rfl⟩ := defineVariable_eq_ok_iff.mp hd
  rw [h.agrees.knows.located.current_eq, place_zero] at hnone ⊢
  have hholds := h.agrees.globals.vars name
  rw [← h.agrees.knows.vars, hnone] at hholds
  have hfree : m.scopes.found (·.vars.get? name) m.scopes.current = none := by
    rw [h.agrees.located.current_eq, place_zero]
    exact hholds.eq_none
  obtain ⟨f, hf, _⟩ := h.agrees.knows.located.globalFrame
  obtain ⟨f', hf', _⟩ := h.agrees.located.globalFrame
  have hΓ := sameShape_store Γ 0 name ⟨name, ty⟩
  have hm := sameShape_store m.scopes 0 name v
  -- No method has been checked yet that could miss the variable.
  let P' : Program :=
    { P with vars := fun name' => if name' = name then some ⟨name, ty⟩ else P.vars name' }
  refine ⟨P', _, defineVariable_eq_ok_iff.mpr ⟨hfree, rfl⟩, hfresh, ?_⟩
  rw [h.agrees.located.current_eq, place_zero]
  refine ⟨⟨⟨hΓ.located h.agrees.knows.located, fun name' => ?_, fun key binding hkey => ?_⟩,
    hm.located h.agrees.located, ⟨hm.rooted h.agrees.globals.rooted, fun name' => ?_,
      fun key => ?_, h.agrees.globals.valid⟩, fun j hj => by omega⟩, fun key hkey => ?_,
    fun m' signature hchecked => (hfresh m' signature hchecked).elim⟩
  · rw [found_store hf, h.agrees.knows.vars]
    simp only [true_and, P']
  · rw [hΓ.found_function] at hkey
    exact h.agrees.knows.functions key binding hkey
  · show M.Holds m.world _ ((m.scopes.store _ _ _).found _ 0)
    rw [found_store hf']
    simp only [true_and, P']
    split
    · exact .some hv
    · exact h.agrees.globals.vars name'
  · exact (hm.found_function key 0).trans (h.agrees.globals.functions key)
  · rw [hΓ.found_function] at hkey
    exact h.keys key hkey

/-- Both sides define the native functions. -/
theorem natives {natives : List Native} (h : AtTop R M P Γ m) (hfresh : P.Fresh)
    (ht : NativesTyped Γ natives Γ') (hmem : ∀ native ∈ natives, native ∈ R.registry.functions) :
    ∃ P' scopes, natives.foldlM (fun scopes native =>
        scopes.defineFunction native.name native.signature.arity (.native native)) m.scopes =
        .ok scopes ∧
      P'.Fresh ∧ AtTop R M P' Γ' { m with scopes := scopes } := by
  induction ht generalizing P m with
  | nil => exact ⟨P, m.scopes, rfl, hfresh, h⟩
  | @cons Γ native rest Γ₁ Γ' hd _ ih =>
    obtain ⟨scopes, hdefine, h₁⟩ := h.native (hmem native List.mem_cons_self) hd
    -- A native is no method, so there are still none.
    have hfresh₁ : (P.bind (native.name, native.signature.arity) (.native native)
        fun _ _ => False).Fresh :=
      fun m' signature hchecked => hchecked.elim (hfresh m' signature) id
    obtain ⟨P', scopes', hrun, hfresh', h'⟩ := ih h₁ hfresh₁
      (fun other hother => hmem other (List.mem_cons_of_mem native hother))
    refine ⟨P', scopes', ?_, hfresh', h'⟩
    rw [List.foldlM_cons, hdefine]
    exact hrun

/-- Both sides define the methods. -/
theorem methods {methods : List Method} (h : AtTop R M P Γ m) (ht : MethodsTyped R Γ methods Γ')
    (hfalls : ∀ method ∈ methods, ∀ signature, R.function method.id ⟨method.name, signature⟩ →
      method.EndsInReturn ∨ ∀ w, M.has w .nil signature.returns) :
    Ends (methods.forM defineMethod) m (fun _ m' => ∃ P', AtTop R M P' Γ' m')
      (fun _ _ => False) := by
  induction ht generalizing P m with
  | nil => exact ⟨P, h⟩
  | @cons Γ method rest signature Γ₁ Γ' hm _ ih =>
    -- The method is bound under a name that was free, at run time as in the check.
    obtain ⟨P₁, scopes, hdefine, h₁⟩ := h.method hm (hfalls method List.mem_cons_self _)
    show Ends (defineMethod method >>= fun _ => rest.forM defineMethod) m _ _
    rw [ends_bind, defineMethod, ends_defineFunction, hdefine]
    exact ih h₁ fun other hother => hfalls other (List.mem_cons_of_mem method hother)

end AtTop

/-! ## Whole runs -/

/-- What makes a well-typed program keep its word. -/
structure Sound (R : Rules) (M : Meaning) (env : Env) (source : Source) : Prop where
  lawful : M.Lawful R
  bare : ∀ {ty}, R.bare ty → ∀ w, M.has w .nil ty
  objects_eq : env.objects = R.registry.objects
  fallsOff : ∀ method ∈ source.methods, ∀ signature,
    R.function method.id ⟨method.name, signature⟩ →
    method.EndsInReturn ∨ ∀ w, M.has w .nil signature.returns

section Runs

variable {R : Rules} {M : Meaning} {env : Env} {source : Source} {P : Program}
  {Γ Γ' : StaticScopes} {m : Machine}

/-- A sound program is a setting for every number of levels of calls. -/
theorem Sound.setting (h : Sound R M env source) (hP : P.Justified R M) (n : Nat) :
    Setting R M P env (invokeWithin env n) :=
  ⟨h.lawful, h.bare, h.objects_eq, quiet_invokeWithin env n,
    invokeSound_invokeWithin h.lawful h.bare h.objects_eq hP n⟩

/-- A global declaration. -/
theorem Sound.field (hS : Sound R M env source) (h : AtTop R M P Γ m) (hfresh : P.Fresh)
    {d : Declaration} (hd : DeclarationTyped R Γ d Γ') :
    Ends (declare env (invoke env) d) m (fun _ m' => ∃ P', P'.Fresh ∧ AtTop R M P' Γ' m')
      (fun halt _ => M.Allows halt) := by
  obtain ⟨hinitial, hdefine, _⟩ := hd
  refine declare_sound (hS.setting h.justified _) h.agrees hinitial (fun _ _ h => h) ?_
  intro v m' hv
  -- The initial value may call natives only, but it may change objects and output.
  have h' : AtTop R M P Γ m' := ⟨hv.agrees, h.keys, h.justified⟩
  obtain ⟨P', scopes, hrun, hfresh', h''⟩ := h'.defineVariable hfresh hdefine hv.has
  rw [ends_defineVariable, hrun]
  exact ⟨P', hfresh', h''⟩

/-- Global declarations in order. -/
theorem Sound.fields (hS : Sound R M env source) {fields : List Declaration}
    (h : AtTop R M P Γ m) (hfresh : P.Fresh) (ht : FieldsTyped R Γ fields Γ') :
    Ends (fields.forM (declare env (invoke env))) m
      (fun _ m' => ∃ P', P'.Fresh ∧ AtTop R M P' Γ' m') (fun halt _ => M.Allows halt) := by
  induction ht generalizing P m with
  | nil => exact ⟨P, hfresh, h⟩
  | @cons Γ d rest Γ₁ Γ' hd _ ih =>
    show Ends (declare env (invoke env) d >>= fun _ => rest.forM (declare env (invoke env))) m _ _
    refine (hS.field h hfresh hd).bind ?_
    -- Later fields are checked and run in scopes that hold this one.
    intro _ m₁ _ hend
    obtain ⟨P₁, hfresh₁, h₁⟩ := hend
    exact ih h₁ hfresh₁

/-- The machine is ready to run a well-typed program: its natives are bound. -/
inductive Launched (R : Rules) (M : Meaning) (source : Source) (start : Machine) : Prop where
  | intro {P Γ₀ Γ₁ Γ₂ binding} :
    P.Fresh → AtTop R M P Γ₀ start →
    FieldsTyped R Γ₀ source.fields Γ₁ → MethodsTyped R Γ₁ source.methods Γ₂ →
    Γ₂.function? "main" 0 = some binding → binding.signature.parameters = [] →
    Ty.integer.accepts binding.signature.returns →
    Launched R M source start

/-- A well-typed program finds its natives bound on a fresh machine. -/
private theorem SourceTyped.launched (h : SourceTyped R source) {w : World} (hw : M.valid w) :
    ∃ start, Machine.new R.registry w = .ok start ∧ Launched R M source start := by
  obtain ⟨hnatives, hfields, hmethods, hmain, hparameters, haccepts⟩ := h
  obtain ⟨P, scopes, hrun, hfresh, htop⟩ :=
    AtTop.natives (AtTop.new hw) (fun _ _ h => h) hnatives (fun _ h => h)
  refine ⟨⟨scopes, w, 0⟩, ?_, .intro hfresh htop hfields hmethods hmain hparameters haccepts⟩
  rw [Machine.new, nativeScopes, hrun]

/-- Globals are evaluated and methods are bound, and then `main` is found. -/
theorem Launched.main (hS : Sound R M env source) (h : Launched R M source m) :
    Ends (do
        source.fields.forM (declare env (invoke env))
        source.methods.forM defineMethod) m
      (fun _ m' => ∃ P Γ binding, AtTop R M P Γ m' ∧ Γ.function? "main" 0 = some binding ∧
        binding.signature.parameters = [] ∧ Ty.integer.accepts binding.signature.returns)
      (fun halt _ => M.Allows halt) := by
  obtain ⟨hfresh, htop, hfields, hmethods, hmain, hparameters, haccepts⟩ := h
  -- Fields are declared before methods are bound, so they cannot call any.
  refine (hS.fields htop hfresh hfields).bind ?_
  intro _ m₁ _ hend
  obtain ⟨P₁, _, h₁⟩ := hend
  refine (h₁.methods hmethods hS.fallsOff).imp ?_ (fun _ _ _ he => he.elim)
  intro _ m₂ _ hend
  obtain ⟨P₂, h₂⟩ := hend
  exact ⟨P₂, _, _, h₂, hmain, hparameters, haccepts⟩

/-- A run of a well-typed program ends in a valid state, or it stops with an allowed error. -/
theorem Launched.execute (hS : Sound R M env source) (h : Launched R M source m) :
    Ends (Exec.execute env source) m (fun _ m' => M.valid m'.world)
      (fun halt _ => M.Allows halt) := by
  have hmain := h.main hS
  unfold Exec.execute
  rw [ends_bind] at hmain ⊢
  refine hmain.mono fun _ m₁ _ h₁ => ?_
  refine h₁.bind ?_
  intro _ m₂ _ hend
  obtain ⟨P, Γ, binding, htop, hfunction, hparameters, haccepts⟩ := hend
  have hcall : Ends (Exec.call (invoke env) "main" []) m₂ _ _ :=
    call_sound (hS.setting htop.justified (maxCalls + 1)) htop.agrees hfunction
      (by rw [hparameters]; exact .nil)
  refine hcall.bind fun v m₃ _ hv => ?_
  -- The result of `main` fits `Integer`; if it is none, the meaning allows that.
  have hinteger := hS.lawful.accepts haccepts hv.has
  cases v with
  | integer n => exact hv.agrees.globals.valid
  | _ => exact hS.lawful.result hinteger fun n h => nomatch h

/-- A well-typed program finds its natives bound in a fresh session. -/
theorem SourceTyped.session {r : Registry} (hr : R.registry = r) (h : SourceTyped R source)
    {w : World} (hw : M.valid w) :
    ∃ s, Session.start r w = .ok s ∧ s.registry = r ∧ Launched R M source s.machine := by
  subst hr
  obtain ⟨start, hnew, hlaunched⟩ := h.launched hw
  refine ⟨⟨R.registry, start⟩, ?_, rfl, hlaunched⟩
  rw [Session.start, hnew]
  rfl

/-- A run of a well-typed program in a session stops with an allowed error, if it stops with
    any. -/
theorem Launched.session_error {s after : Session} (h : Launched R M source s.machine)
    {rounds : Nat} (hS : Sound R M ⟨s.registry.objects, rounds⟩ source) {e : RuntimeError}
    (hrun : s.execute rounds source = some (.error e, after)) : M.allowed e :=
  (h.execute hS).of_error (Session.execute_eq_some_iff.mp hrun).1

end Runs

end LetLang
