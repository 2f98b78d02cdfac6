import Mathlib.Logic.Equiv.Basic
import LetLang.Proofs.NameResolution
import LetLang.Proofs.RenamedAnalysis

/-! # Variables may have any names

A program that is accepted runs in the same way under other names for its variables: from the
renamed state, the renamed program comes to the renamed state with the same result.

This would fail for a program that looks for a variable in vain or defines one twice, since the
error names it.  An accepted program never does.  That a native may fail with such an error does
not matter, because natives know nothing of variables; so it is not enough to look at how a run
ends, and the two runs are followed along the typing of the program.

* `Exec.Mirrors`                    what it means that a computation does the same after renaming
* `mirrors_evaluate`, `mirrors_statements`, `invokeMirrors_invokeWithin`
  expressions, statements and calls, in states that agree with the scopes of the analysis
* `names_of_variables_are_free`     the result: analysis and run depend on no name
-/

namespace LetLang

open Scopes Exec

/-- The function with the variables of its body renamed, if it is a method. -/
def Callable.rename (f : String → String) : Callable → Callable
  | native n => .native n
  | method m => .method (m.rename f)

/-- The state with all variables renamed, also those of the methods that are bound. -/
def Machine.rename (f : String → String) (m : Machine) : Machine :=
  { m with scopes := m.scopes.rename f id (Callable.rename f) }

/-! ## A meaning that asks for nothing -/

/-- Every value has every type, and every error is allowed. -/
def Meaning.anything : Meaning where
  has := fun _ _ _ => True
  valid := fun _ => True
  later := fun _ _ => True
  allowed := fun _ => True

private theorem Meaning.gives_anything (x : NativeM Value) (w : World) (ty : Ty) :
    anything.Gives x w ty := by
  unfold Gives Ends
  cases x w with
  | ok v w' => exact ⟨trivial, trivial, trivial⟩
  | error e w' => trivial

/-- The meaning that asks for nothing is lawful. -/
private theorem Meaning.lawful_anything (r : Registry) : anything.Lawful (Rules.lax r) where
  later_refl := fun _ => trivial
  later_trans := fun _ _ => trivial
  has_later := fun _ _ => trivial
  accepts := fun _ _ => trivial
  literal := fun _ => trivial
  integer := trivial
  boolean := trivial
  toBool := fun _ _ => trivial
  elements := fun _ _ => trivial
  binary := fun {w a b left right operator ty} _ _ _ _ => by
    cases Value.binary operator a b <;> trivial
  -- A native may do what it wants: nothing is asked of values or worlds.
  native := fun _ _ _ => gives_anything _ _ _
  readField := fun _ _ _ _ => gives_anything _ _ _
  writeField := fun {w v id ty name fieldType u} _ _ _ _ _ => by
    unfold Ends
    cases NativeM.writeField v name u w with
    | ok _ w' => exact ⟨trivial, trivial⟩
    | error e w' => trivial
  method := fun {w v id ty name arity native} _ _ _ => by
    cases v.method (Rules.lax r).registry.objects name arity with
    | ok found => exact fun _ _ _ _ _ => gives_anything _ _ _
    | error e => trivial
  depth := trivial
  result := fun _ _ => trivial

/-- Only a function can be in the way of a function. -/
private theorem Scopes.defineFunction_eq_error {V F : Type} {s : Scopes V F} {name : String}
    {arity : Nat}
    {function : F} {e : ScopeError} (h : s.defineFunction name arity function = .error e) :
    e = .functionDefined name arity := by
  unfold defineFunction at h
  split at h <;> cases h
  rfl

namespace Exec

variable {α β : Type} {f : String → String} {m : Machine}

/-! ## Steps of the machine -/

/-- From the renamed state, `y` does what `x` does from the state `m`. -/
def Mirrors (f : String → String) (x y : Exec α) (m : Machine) : Prop :=
  y (m.rename f) = mapState (Machine.rename f) (x m)

private theorem mirrors_pure (a : α) : Mirrors f (pure a : Exec α) (pure a) m := rfl

/-- An error of a run carries no names of variables. -/
private theorem mirrors_fail (e : RuntimeError) : Mirrors f (fail e : Exec α) (fail e) m := rfl

/-- Sequences mirror each other step by step. -/
theorem Mirrors.bind {x y : Exec α} {g g' : α → Exec β} (hx : Mirrors f x y m)
    (hg : ∀ a m', x m = .ok a m' → Mirrors f (g a) (g' a) m') :
    Mirrors f (x >>= g) (y >>= g') m := by
  unfold Mirrors at hx ⊢
  simp only [Bind.bind, EStateM.bind, hx]
  cases hrun : x m with
  | ok a m' => exact hg a m' hrun
  | error e m' => rfl

theorem Mirrors.discard {x y : Exec α} (h : Mirrors f x y m) :
    Mirrors f (discard x) (discard y) m := by
  unfold Mirrors at h ⊢
  simp only [Functor.discard, Functor.mapConst, EStateM.map, Function.comp, h]
  cases x m <;> rfl

/-- A check looks at values only. -/
private theorem mirrors_ofExcept (x : Except RuntimeError α) :
    Mirrors f (ofExcept x) (ofExcept x) m := by
  cases x <;> rfl

/-- Behind a check both runs go on from the same value. -/
private theorem Mirrors.ofExcept_bind {x : Except RuntimeError α} {g g' : α → Exec β}
    (hg : ∀ a, Mirrors f (g a) (g' a) m) :
    Mirrors f (ofExcept x >>= g) (ofExcept x >>= g') m := by
  cases x with
  | ok a => exact hg a
  | error e => rfl

/-- Natives do not see the scopes. -/
private theorem mirrors_ofNative (x : NativeM α) : Mirrors f (ofNative x) (ofNative x) m := by
  unfold Mirrors ofNative Machine.rename
  cases x m.world <;> rfl

/-- A variable that is found is found under its new name. -/
private theorem mirrors_readVariable (hf : Function.Injective f) {name : String} {v : Value}
    (h : m.scopes.lookup? name = some v) :
    Mirrors f (readVariable name) (readVariable (f name)) m := by
  unfold Mirrors readVariable Machine.rename
  simp only [lookup?_rename hf, h]
  rfl

/-- A variable that is found is written under its new name. -/
private theorem mirrors_writeVariable (hf : Function.Injective f) {name : String} {value : Value}
    {scopes : Scopes Value Callable} (h : m.scopes.assign? name value = some scopes) :
    Mirrors f (writeVariable name value) (writeVariable (f name) value) m := by
  have hassign := assign?_rename (g := id) (h := Callable.rename f) (s := m.scopes) hf name value
  unfold Mirrors writeVariable Machine.rename
  rw [id] at hassign
  simp only [hassign, h]
  rfl

/-- A change of the scopes that commutes with renaming, and whose error has no name to change. -/
private theorem mirrors_changeScopes
    {change change' : Scopes Value Callable → Except ScopeError (Scopes Value Callable)}
    (h : change' (m.rename f).scopes =
      (change m.scopes).map (Scopes.rename f id (Callable.rename f))) :
    Mirrors f (changeScopes change) (changeScopes change') m := by
  unfold Mirrors changeScopes
  rw [h]
  cases change m.scopes <;> rfl

/-- A name that is free is free after the renaming. -/
private theorem mirrors_defineVariable (hf : Function.Injective f) {name : String} {value : Value}
    {scopes : Scopes Value Callable} (h : m.scopes.defineVariable name value = .ok scopes) :
    Mirrors f (defineVariable name value) (defineVariable (f name) value) m := by
  have hdefine :=
    defineVariable_rename (g := id) (h := Callable.rename f) (s := m.scopes) hf name value
  refine mirrors_changeScopes (hdefine.trans ?_)
  rw [h]
  rfl

/-- A method is defined under its own name, or that name is taken. -/
private theorem mirrors_defineMethod (method : Method) :
    Mirrors f (defineMethod method) (defineMethod (method.rename f)) m := by
  have hdefine := defineFunction_rename (f := f) (g := id) (h := Callable.rename f)
    (s := m.scopes) method.name method.parameters.length (.method method)
  have harity : (method.rename f).parameters.length = method.parameters.length :=
    List.length_map _
  unfold defineMethod defineFunction
  rw [harity]
  refine mirrors_changeScopes (hdefine.trans ?_)
  cases hd : m.scopes.defineFunction method.name method.parameters.length (.method method) with
  | ok scopes => rfl
  | error e =>
    -- The error is about a function, whose name is not changed.
    obtain rfl := defineFunction_eq_error hd
    rfl

/-- Scopes are entered and left alike. -/
theorem Mirrors.inScope {x y : Exec α} (parent : FrameId)
    (h : Mirrors f x y { m with scopes := m.scopes.pushChildOf parent }) :
    Mirrors f (inScope parent x) (inScope parent y) m := by
  unfold Mirrors at h ⊢
  rw [inScope_eq_mapState, inScope_eq_mapState, mapState_mapState]
  simp only [Machine.rename] at h ⊢
  rw [← rename_pushChildOf, h, mapState_mapState]
  simp only [rename_pop]
  rfl

theorem Mirrors.inBlock {x y : Exec α}
    (h : Mirrors f x y { m with scopes := m.scopes.push }) :
    Mirrors f (inBlock x) (inBlock y) m :=
  Mirrors.inScope m.scopes.current h

/-- Calls are counted alike. -/
theorem Mirrors.counted {x y : Exec α} (h : Mirrors f x y { m with calls := m.calls + 1 }) :
    Mirrors f (counted x) (counted y) m := by
  unfold Mirrors at h ⊢
  rw [counted_eq_mapState, counted_eq_mapState, mapState_mapState]
  simp only [Machine.rename] at h ⊢
  rw [h, mapState_mapState]
  rfl

/-- A loop whose rounds do the same after renaming, as long as `I` holds. -/
theorem Mirrors.forRounds {I : Machine → Prop} {body body' : Int → Exec Completion}
    (hbody : ∀ i m, I m → Mirrors f (body i) (body' i) m)
    (hkeep : ∀ i m m', I m → body i m = .ok .normal m' → I m') (n : Nat) (i : Int) (hm : I m) :
    Mirrors f (forRounds body i n) (forRounds body' i n) m := by
  induction n generalizing i m with
  | zero => exact mirrors_pure _
  | succ n ih =>
    refine (hbody i m hm).bind fun completion m' hrun => ?_
    cases completion with
    | normal => exact ih (i + 1) (hkeep i m m' hm hrun)
    | returned v => exact mirrors_pure _

/-- A loop whose condition and rounds do the same after renaming, as long as `I` holds. -/
theorem Mirrors.whileRounds {I : Machine → Prop} {test test' : Exec Bool}
    {body body' : Exec Completion} (htest : ∀ m, I m → Mirrors f test test' m)
    (hbody : ∀ m, I m → Mirrors f body body' m)
    (hkeep : ∀ m m' holds, I m → test m = .ok holds m' → I m')
    (hkeep' : ∀ m m', I m → body m = .ok .normal m' → I m') (n : Nat) (hm : I m) :
    Mirrors f (whileRounds test body n) (whileRounds test' body' n) m := by
  -- The invariant holds again after every round that ends normally.
  induction n generalizing m with
  | zero => rfl
  | succ n ih =>
    refine (htest m hm).bind fun holds m₁ hrun => ?_
    have hm₁ := hkeep m m₁ holds hm hrun
    cases holds with
    | false => exact mirrors_pure _
    | true =>
      refine (hbody m₁ hm₁).bind fun completion m₂ hrun' => ?_
      cases completion with
      | normal => exact ih (hkeep' m₁ m₂ hm₁ hrun')
      | returned v => exact mirrors_pure _

/-! ## Expressions -/

/-- Calls of checked methods do the same after renaming. -/
def InvokeMirrors (f : String → String) (P : Program) (inv : Invoke) : Prop :=
  ∀ method signature values (m : Machine), P.checked method signature → m.Globals .anything P →
    List.Forall₂ (Meaning.anything.has m.world) values signature.parameters →
    Mirrors f (inv method values) (inv (method.rename f) values) m

section Syntax

variable {r : Registry} {P : Program} {env : Env} {inv : Invoke} {Γ Γ' : StaticScopes} {b k : Nat}

/-- Functions keep their names, so a call finds the same one. -/
private theorem mirrors_call (hinv : InvokeMirrors f P inv)
    (h : Agrees (Rules.lax r) .anything P Γ b k m)
    {name : String} {values : List Value} {binding : FunctionBinding}
    (hf : Γ.function? name values.length = some binding)
    (hvalues : List.Forall₂ (Meaning.anything.has m.world) values binding.signature.parameters) :
    Mirrors f (call inv name values) (call inv name values) m := by
  -- The analysis knows the function, so the machine has one under the same key.
  obtain ⟨callable, hbound, hmeets⟩ := h.function hf
  have hrenamed : (m.rename f).scopes.function? name values.length = some (callable.rename f) := by
    rw [Machine.rename, function?_rename, hbound]
    rfl
  unfold Mirrors call
  simp only [Bind.bind, EStateM.bind, findFunction, hbound, hrenamed]
  cases callable with
  | native native => exact mirrors_ofNative (native.call values)
  | method method =>
    obtain ⟨returns, hchecked, _⟩ := hmeets
    exact hinv method _ values m hchecked h.globals hvalues

mutual

/-- A well-typed expression does the same after renaming. -/
theorem mirrors_evaluate (hf : Function.Injective f)
    (S : Setting (Rules.lax r) .anything P env inv) (hinv : InvokeMirrors f P inv) :
    ∀ (e : Expr) {ty : Ty} {m : Machine}, ExprTyped (Rules.lax r) Γ e ty →
      Agrees (Rules.lax r) .anything P Γ b k m →
      Mirrors f (evaluate env inv e) (evaluate env inv (e.rename f)) m
  | .literal id value, ty, m, _, _ => by
    rw [Expr.rename]
    exact mirrors_pure _
  | .group id inner, ty, m, .group _ hinner _, h => by
    rw [Expr.rename, evaluate, evaluate]
    exact mirrors_evaluate hf S hinv inner hinner h
  | .binary id operator left right, ty, m, .binary hleft hright _ _, h => by
    rw [Expr.rename, evaluate, evaluate]
    refine (mirrors_evaluate hf S hinv left hleft h).bind fun a m₁ hrun => ?_
    -- The right operand runs in the state that the left one has left.
    have h₁ := ((evaluate_sound S left hleft h).of_ok hrun).agrees
    have hright := mirrors_evaluate hf S hinv right hright h₁
    cases operator with
    | and =>
      -- A logical operator looks at values only, and these are the same.
      refine .ofExcept_bind fun holds => ?_
      cases holds with
      | true => exact hright.bind fun v _ _ => .ofExcept_bind fun _ => mirrors_pure _
      | false => exact mirrors_pure _
    | or =>
      refine .ofExcept_bind fun holds => ?_
      cases holds with
      | true => exact mirrors_pure _
      | false => exact hright.bind fun v _ _ => .ofExcept_bind fun _ => mirrors_pure _
    | _ => exact hright.bind fun v _ _ => mirrors_ofExcept _
  | .var id name, _, m, .var hlookup _ _, h => by
    -- The analysis has found the variable, so both machines find one.
    obtain ⟨v, hread, _⟩ := h.read hlookup
    rw [Expr.rename, evaluate, evaluate]
    exact mirrors_readVariable hf hread
  | .field id receiver name, ty, m, .field hreceiver _ _ _, h => by
    rw [Expr.rename, evaluate, evaluate]
    exact (mirrors_evaluate hf S hinv receiver hreceiver h).bind fun v _ _ => mirrors_ofNative _
  | .call id name items, _, m, .call hfunction hitems _ _, h => by
    rw [Expr.rename, evaluate, evaluate]
    refine (mirrors_evaluateAll hf S hinv items hitems h).bind fun values m₁ hrun => ?_
    obtain ⟨hvalues, _, h₁⟩ := (evaluateAll_sound S items hitems h).of_ok hrun
    rw [hitems.length_eq, ← hvalues.length_eq] at hfunction
    exact mirrors_call hinv h₁ hfunction hvalues
  | .invoke id receiver name items, _, m, .invoke hreceiver _ hitems _ _, h => by
    rw [Expr.rename, evaluate, evaluate, Expr.length_listRename]
    refine (mirrors_evaluate hf S hinv receiver hreceiver h).bind fun v m₁ hrun => ?_
    have h₁ := ((evaluate_sound S receiver hreceiver h).of_ok hrun).agrees
    -- The member of a type is looked up by its own name, which is no variable.
    refine .ofExcept_bind fun native => ?_
    exact (mirrors_evaluateAll hf S hinv items hitems h₁).bind fun values _ _ => mirrors_ofNative _

/-- Well-typed arguments do the same after renaming. -/
private theorem mirrors_evaluateAll (hf : Function.Injective f)
    (S : Setting (Rules.lax r) .anything P env inv) (hinv : InvokeMirrors f P inv) :
    ∀ (items : List Expr) {parameters : List Ty} {m : Machine},
      ArgumentsTyped (Rules.lax r) Γ items parameters → Agrees (Rules.lax r) .anything P Γ b k m →
      Mirrors f (evaluateAll env inv items) (evaluateAll env inv (Expr.listRename f items)) m
  | [], _, m, _, _ => by
    rw [Expr.listRename]
    exact mirrors_pure _
  | e :: rest, _, m, .cons he _ hrest, h => by
    rw [Expr.listRename, evaluateAll, evaluateAll]
    refine (mirrors_evaluate hf S hinv e he h).bind fun v m₁ hrun => ?_
    have h₁ := ((evaluate_sound S e he h).of_ok hrun).agrees
    exact (mirrors_evaluateAll hf S hinv rest hrest h₁).bind fun values _ _ => mirrors_pure _

end

/-! ## Statements -/

/-- A declaration whose variable can be defined. -/
private theorem mirrors_declare (hf : Function.Injective f)
    (S : Setting (Rules.lax r) .anything P env inv) (hinv : InvokeMirrors f P inv)
    (h : Agrees (Rules.lax r) .anything P Γ b k m) {d : Declaration} {ty : Ty}
    (hinitial : InitialTyped (Rules.lax r) Γ d.typeName d.initializer ty)
    (hdefine : ∀ v m', Agrees (Rules.lax r) .anything P Γ b k m' →
      ∃ scopes, m'.scopes.defineVariable d.name v = .ok scopes) :
    Mirrors f (declare env inv d) (declare env inv (d.rename f)) m := by
  -- With an initializer, its value is what is defined.
  have hsome : ∀ {e actual}, ExprTyped (Rules.lax r) Γ e actual →
      Mirrors f (evaluate env inv e >>= defineVariable d.name)
        (evaluate env inv (e.rename f) >>= defineVariable (f d.name)) m := by
    intro e actual he
    refine (mirrors_evaluate hf S hinv e he h).bind fun v m' hrun => ?_
    obtain ⟨scopes, hscopes⟩ := hdefine v m' ((evaluate_sound S e he h).of_ok hrun).agrees
    exact mirrors_defineVariable hf hscopes
  unfold declare
  simp only [Declaration.rename]
  generalize d.typeName = typeName at hinitial
  generalize d.initializer = initializer at hinitial
  cases hinitial with
  | annotated _ he _ => exact hsome he
  | bare _ _ =>
    obtain ⟨scopes, hscopes⟩ := hdefine .nil m h
    exact mirrors_defineVariable hf hscopes
  | inferred he => exact hsome he

/-- An assignment to a variable finds its place, and one to a field does not look for names. -/
private theorem mirrors_assign (hf : Function.Injective f)
    (S : Setting (Rules.lax r) .anything P env inv) (hinv : InvokeMirrors f P inv)
    (h : Agrees (Rules.lax r) .anything P Γ b k m) {target value : Expr}
    {targetType valueType : Ty} (haccess : target.isAccess = true)
    (htarget : ExprTyped (Rules.lax r) Γ target targetType)
    (hvalue : ExprTyped (Rules.lax r) Γ value valueType) :
    Mirrors f (assign env inv target value)
      (assign env inv (target.rename f) (value.rename f)) m := by
  cases htarget with
  | @var id name binding hlookup _ _ =>
    rw [Expr.rename]
    refine (mirrors_evaluate hf S hinv value hvalue h).bind fun v m₁ hrun => ?_
    have h₁ := ((evaluate_sound S value hvalue h).of_ok hrun).agrees
    -- The analysis found the variable in some scope, and there the machine finds it.
    rw [lookup?, Option.map_eq_some_iff] at hlookup
    obtain ⟨⟨i, _⟩, hsearch, rfl⟩ := hlookup
    obtain ⟨j, _, _, _, hplace, _⟩ := h₁.search hsearch
    have hassign : m₁.scopes.assign? name v = some (m₁.scopes.store (place b j) name v) := by
      rw [assign?_eq, hplace, Option.map_some]
    exact mirrors_writeVariable hf hassign
  | field hreceiver _ _ _ =>
    rw [Expr.rename]
    refine (mirrors_evaluate hf S hinv _ hreceiver h).bind fun object m₁ hrun => ?_
    have h₁ := ((evaluate_sound S _ hreceiver h).of_ok hrun).agrees
    exact (mirrors_evaluate hf S hinv value hvalue h₁).bind fun v _ _ => mirrors_ofNative _
  | _ => cases haccess

/-- A condition has the same truth value. -/
private theorem mirrors_condition (hf : Function.Injective f)
    (S : Setting (Rules.lax r) .anything P env inv) (hinv : InvokeMirrors f P inv)
    (h : Agrees (Rules.lax r) .anything P Γ b k m) {condition : Expr} {ty : Ty}
    (hc : ExprTyped (Rules.lax r) Γ condition ty) :
    Mirrors f (do
        let v ← evaluate env inv condition
        ofExcept v.toBool)
      (do
        let v ← evaluate env inv (condition.rename f)
        ofExcept v.toBool) m :=
  (mirrors_evaluate hf S hinv condition hc h).bind fun _ _ _ => mirrors_ofExcept _

mutual

/-- A well-typed statement does the same after renaming. -/
private theorem mirrors_statement (hf : Function.Injective f)
    (S : Setting (Rules.lax r) .anything P env inv) (hinv : InvokeMirrors f P inv)
    {returns : Ty} : ∀ (s : Statement) {Γ Γ' : StaticScopes} {k : Nat} {m : Machine},
      StatementTyped (Rules.lax r) returns Γ s Γ' →
      Agrees (Rules.lax r) .anything P Γ b (k + 1) m →
      Mirrors f (statement env inv s) (statement env inv (s.rename f)) m
  | .expression value, Γ, _, k, m, .expression hvalue, h => by
    rw [Statement.rename, statement, statement]
    exact (mirrors_evaluate hf S hinv value hvalue h).discard.bind fun _ _ _ => mirrors_pure _
  | .declare d, Γ, Γ', k, m, .declare hd, h => by
    obtain ⟨hinitial, hdefine, _⟩ := hd
    rw [Statement.rename, statement, statement]
    refine (mirrors_declare hf S hinv h hinitial fun v m' h' => ?_).bind
      fun _ _ _ => mirrors_pure _
    -- The analysis has checked that the name is free here.
    obtain ⟨scopes, hscopes, _⟩ := h'.define hdefine (v := v) trivial
    exact ⟨scopes, hscopes⟩
  | .assign target value, Γ, _, k, m, .assign haccess htarget hvalue _, h => by
    rw [Statement.rename, statement, statement]
    exact (mirrors_assign hf S hinv h haccess htarget hvalue).bind fun _ _ _ => mirrors_pure _
  | .ifElse condition thenBody elseBody, Γ, _, k, m, .ifElse hc hty hthen helse, h => by
    rw [Statement.rename, statement, statement]
    refine (mirrors_evaluate hf S hinv condition hc h).bind fun v m₁ hrun => ?_
    have h₁ := ((evaluate_sound S condition hc h).of_ok hrun).agrees
    refine .ofExcept_bind fun holds => ?_
    cases holds with
    | true => exact .inBlock (mirrors_statements hf S hinv thenBody hthen h₁.push)
    | false => exact .inBlock (mirrors_statements hf S hinv elseBody helse h₁.push)
  | .forIn name iterable body, Γ, _, k, m, .forIn hi _ hdefine hbody, h => by
    rw [Statement.rename, statement, statement]
    refine (mirrors_evaluate hf S hinv iterable hi h).bind fun v m₁ hrun => ?_
    have h₁ := ((evaluate_sound S iterable hi h).of_ok hrun).agrees
    cases v.elements? with
    | none => exact mirrors_fail _
    | some range =>
      -- Every round starts from scopes that agree, because blocks are left as they were entered.
      refine Mirrors.forRounds (I := Agrees (Rules.lax r) .anything P Γ b (k + 1))
        (fun i m h => .inBlock ?_) (fun i m m' h hrun => ?_) range.2 range.1 h₁
      · obtain ⟨scopes, hscopes, _⟩ := h.push.define hdefine (v := .integer i) trivial
        refine (mirrors_defineVariable hf hscopes).bind fun _ m' hrun => ?_
        have h' := (defineVariable_sound h.push hdefine trivial).of_ok hrun
        exact mirrors_statements hf S hinv body hbody h'.2
      · exact ((forRound_sound S hdefine hbody
          (fun m h => statements_sound S body hbody h) i h).of_ok hrun).2
  | .whileDo condition body, Γ, _, k, m, .whileDo hc hty hbody, h => by
    rw [Statement.rename, statement, statement]
    exact Mirrors.whileRounds (I := Agrees (Rules.lax r) .anything P Γ b (k + 1))
      (fun m h => mirrors_condition hf S hinv h hc)
      (fun m h => .inBlock (mirrors_statements hf S hinv body hbody h.push))
      (fun m m' _ h hrun => ((condition_sound S hc hty h).of_ok hrun).2)
      (fun m m' h hrun => ((block_sound S body hbody h).of_ok hrun).2) env.rounds h
  | .returns value, Γ, _, k, m, .returns hvalue _, h => by
    rw [Statement.rename, statement, statement]
    exact (mirrors_evaluate hf S hinv value hvalue h).bind fun _ _ _ => mirrors_pure _

/-- Well-typed statements do the same after renaming. -/
theorem mirrors_statements (hf : Function.Injective f)
    (S : Setting (Rules.lax r) .anything P env inv) (hinv : InvokeMirrors f P inv)
    {returns : Ty} : ∀ (body : List Statement) {Γ Γ' : StaticScopes} {k : Nat} {m : Machine},
      StatementsTyped (Rules.lax r) returns Γ body Γ' →
      Agrees (Rules.lax r) .anything P Γ b (k + 1) m →
      Mirrors f (statements env inv body) (statements env inv (Statement.listRename f body)) m
  | [], Γ, _, k, m, _, _ => by
    rw [Statement.listRename]
    exact mirrors_pure _
  | s :: rest, Γ, Γ', k, m, .cons hs hrest, h => by
    rw [Statement.listRename, statements, statements]
    refine (mirrors_statement hf S hinv s hs h).bind fun completion m₁ hrun => ?_
    -- After a `RETURN` neither run goes on.
    cases completion with
    | normal =>
      exact mirrors_statements hf S hinv rest hrest ((statement_sound S s hs h).of_ok hrun).2
    | returned v => exact mirrors_pure _

end

end Syntax

/-! ## Calls -/

/-- Parameters are defined under their new names. -/
private theorem mirrors_defineParameters (hf : Function.Injective f) {R : Rules} {P : Program}
    {b k : Nat}
    {parameters : List Parameter} {types : List Ty} {values : List Value} {Γ Γ' : StaticScopes}
    (ht : ParametersTyped Γ parameters types Γ') (h : Agrees R .anything P Γ b (k + 1) m)
    (hvalues : List.Forall₂ (Meaning.anything.has m.world) values types) :
    Mirrors f (defineParameters parameters values)
      (defineParameters (parameters.map (Parameter.rename f)) values) m := by
  induction ht generalizing values m with
  | nil => exact mirrors_pure _
  | cons hdefine _ ih =>
    cases hvalues with
    | cons hv hvs =>
      obtain ⟨scopes, hscopes, _⟩ := h.define hdefine hv
      refine (mirrors_defineVariable hf hscopes).bind fun _ m₁ hrun => ?_
      obtain ⟨hworld, h₁⟩ := (defineVariable_sound h hdefine hv).of_ok hrun
      -- Defining a parameter leaves the world alone, so the other values keep their types.
      rw [← hworld] at hvs
      exact ih h₁ hvs

/-- Calls of checked methods do the same after renaming, however deep they go. -/
theorem invokeMirrors_invokeWithin (hf : Function.Injective f) {r : Registry} {P : Program}
    {env : Env} (henv : env.objects = r.objects) (hP : P.Justified (Rules.lax r) .anything)
    (n : Nat) : InvokeMirrors f P (invokeWithin env n) := by
  have hM := Meaning.lawful_anything r
  induction n with
  | zero => exact fun method _ _ _ _ _ _ => mirrors_fail _
  | succ n ih =>
    intro method signature values m hchecked hglobals hvalues
    have S : Setting (Rules.lax r) .anything P env (invokeWithin env n) :=
      ⟨hM, fun _ _ => trivial, henv, quiet_invokeWithin env n,
        invokeSound_invokeWithin hM (fun _ _ => trivial) henv hP n⟩
    unfold Mirrors
    -- Renaming does not change how many calls are active.
    by_cases hcalls : maxCalls ≤ m.calls
    · have hcalls' : maxCalls ≤ (m.rename f).calls := hcalls
      rw [invokeWithin_of_maxCalls_le env _ method values hcalls,
        invokeWithin_of_maxCalls_le env _ (method.rename f) values hcalls']
      rfl
    · have hcalls' : (m.rename f).calls < maxCalls := Nat.not_le.mp hcalls
      rw [invokeWithin_of_lt_maxCalls env n method values (Nat.not_le.mp hcalls),
        invokeWithin_of_lt_maxCalls env n (method.rename f) values hcalls']
      -- The body was checked in scopes of its own, with which the frame of the call agrees.
      obtain ⟨Γ₁, Γ₂, Γ₃, hknows, hparameters, hbody⟩ := (hP method signature hchecked).body
      have hstart := Agrees.call hglobals hknows
      refine Mirrors.bind (.counted (.inScope global ?_)) fun _ _ _ => mirrors_pure _
      refine (mirrors_defineParameters hf hparameters hstart hvalues).bind fun _ m₁ hrun => ?_
      have h₁ := (defineParameters_sound hparameters hstart hvalues).of_ok hrun
      exact mirrors_statements hf S ih method.body hbody h₁.2

end Exec

/-! ## Programs -/

section Programs

variable {f : String → String} {r : Registry} {env : Env} {source : Source} {P : Program}
  {Γ Γ' : StaticScopes} {m : Machine}

/-- Every program is sound if nothing is asked of it. -/
theorem Sound.anything (henv : env.objects = r.objects) (source : Source) :
    Sound (Rules.lax r) .anything env source :=
  ⟨Meaning.lawful_anything r, fun _ _ => trivial, henv, fun _ _ _ _ => .inr fun _ => trivial⟩

/-- Global declarations do the same after renaming. -/
private theorem mirrors_fields (source : Source) (hf : Function.Injective f)
    (henv : env.objects = r.objects) {fields : List Declaration}
    (ht : FieldsTyped (Rules.lax r) Γ fields Γ')
    (h : AtTop (Rules.lax r) .anything P Γ m) (hfresh : P.Fresh) :
    Mirrors f (fields.forM (declare env (invoke env)))
      ((fields.map (Declaration.rename f)).forM (declare env (invoke env))) m := by
  have hS := Sound.anything henv source
  induction ht generalizing P m with
  | nil => exact mirrors_pure _
  | @cons Γ d rest Γ₁ Γ' hd _ ih =>
    have hinv := invokeMirrors_invokeWithin hf henv h.justified (maxCalls + 1)
    have ⟨hinitial, hdefine, _⟩ := hd
    refine Mirrors.bind (x := declare env (invoke env) d) ?_ fun _ m₁ hrun => ?_
    · refine mirrors_declare hf (hS.setting h.justified _) hinv h.agrees hinitial
        fun v m' h' => ?_
      have htop : AtTop (Rules.lax r) .anything P Γ m' := ⟨h', h.keys, h.justified⟩
      obtain ⟨_, scopes, hscopes, _⟩ := htop.defineVariable hfresh hdefine (v := v) trivial
      exact ⟨scopes, hscopes⟩
    -- The next field is declared in the scopes that this one has left.
    · obtain ⟨P₁, hfresh₁, h₁⟩ := (hS.field h hfresh hd).of_ok hrun
      exact ih h₁ hfresh₁

/-- Methods are bound in the same way after renaming. -/
private theorem mirrors_methods (methods : List Method) (m : Machine) :
    Mirrors f (methods.forM defineMethod)
      ((methods.map (Method.rename f)).forM defineMethod) m := by
  induction methods generalizing m with
  | nil => exact mirrors_pure _
  | cons method rest ih =>
    exact Mirrors.bind (x := defineMethod method) (mirrors_defineMethod method)
      fun _ m' _ => ih m'

/-- A whole run does the same after renaming. -/
private theorem Launched.mirrors (hf : Function.Injective f) (henv : env.objects = r.objects)
    (h : Launched (Rules.lax r) .anything source m) :
    Mirrors f (Exec.execute env source) (Exec.execute env (source.rename f)) m := by
  have hS := Sound.anything henv source
  have hmain := h.main hS
  obtain ⟨hfresh, htop, hfields, _⟩ := h
  unfold Exec.execute
  refine (mirrors_fields source hf henv hfields htop hfresh).bind fun _ m₁ hrun => ?_
  refine (mirrors_methods source.methods m₁).bind fun _ m₂ hrun' => ?_
  -- By now `main` is bound to a method that was checked.
  obtain ⟨P, Γ, binding, htop, hfunction, hparameters, _⟩ :=
    ((ends_bind.mp hmain).of_ok hrun).of_ok hrun'
  have hinv := invokeMirrors_invokeWithin hf henv htop.justified (maxCalls + 1)
  have hnone : List.Forall₂ (Meaning.anything.has m₂.world) [] binding.signature.parameters := by
    rw [hparameters]
    exact .nil
  refine (mirrors_call hinv htop.agrees hfunction hnone).bind fun v m₃ _ => ?_
  cases v with
  | integer n => exact mirrors_pure _
  | _ => exact mirrors_fail _

/-- The scopes in which a program starts have natives only, which have no names to change. -/
private theorem rename_nativeScopes {natives : List Native} {s : Scopes Value Callable}
    (h : nativeScopes natives = .ok s) : s.rename f id (Callable.rename f) = s := by
  refine of_nativeScopes (I := fun s => s.rename f id (Callable.rename f) = s) rename_new
    (fun native _ s hs => ?_) h
  rw [rename_redefineFunction, hs]
  rfl

/-- A fresh session is the same under all names. -/
private theorem Session.rename_start {s : Session} {world : World}
    (h : Session.start r world = .ok s) :
    s.machine.rename f = s.machine := by
  rw [Session.start_eq] at h
  cases hs : nativeScopes r.functions with
  | error e => rw [hs] at h; exact nomatch h
  | ok scopes =>
    rw [hs] at h
    cases h
    rw [Machine.rename, rename_nativeScopes hs]

end Programs

/-- The answer of a run and the output after it. -/
def Session.answer (s : Session) (rounds : Nat) (source : Source) :
    Option (Except RuntimeError Int × Output) :=
  (s.execute rounds source).map fun answer => (answer.1, answer.2.output)

/-- A session whose machine has no names of its own gives the same answer. -/
private theorem Session.answer_rename {f : String → String} {s : Session} {rounds : Nat}
    {source : Source} (hs : s.machine.rename f = s.machine)
    (h : Mirrors f (Exec.execute ⟨s.registry.objects, rounds⟩ source)
      (Exec.execute ⟨s.registry.objects, rounds⟩ (source.rename f)) s.machine) :
    s.answer rounds (source.rename f) = s.answer rounds source := by
  unfold Mirrors at h
  rw [hs] at h
  unfold answer execute
  rw [h]
  cases Exec.execute ⟨s.registry.objects, rounds⟩ source s.machine with
  | ok n m => rfl
  | error halt m => cases halt <;> rfl

/-- No name of a variable is special.  With other names, different ones for different variables, a
    program is accepted or rejected as before, up to the names in the side table or the error; and
    if it is accepted, it gives the same answer and writes the same output. -/
theorem names_of_variables_are_free {f : String → String} (hf : Function.Injective f)
    (r : Registry) (source : Source) :
    match analyze r source, analyze r (source.rename f) with
    | .ok a, .ok a' => a.SameUpTo f source a' ∧ ∀ world, ∃ s, Session.start r world = .ok s ∧
        ∀ rounds, s.answer rounds (source.rename f) = s.answer rounds source
    | .error e, .error e' => e' = e.rename f
    | _, _ => False := by
  have hrename := analyze_rename hf r source
  -- The two analyses give the same kind of answer.
  cases ha : analyze r source <;> cases ha' : analyze r (source.rename f) <;>
    rw [ha, ha'] at hrename
  · exact hrename
  · exact hrename
  · exact hrename
  · refine ⟨hrename, fun world => ?_⟩
    have htyped : SourceTyped (Rules.lax r) source :=
      analyze_typed ha (.inl (Rules.lax_lax r)) fun _ _ _ _ _ _ _ => trivial
    obtain ⟨s, hstart, rfl, hlaunched⟩ := htyped.session (M := .anything) (w := world) rfl trivial
    refine ⟨s, hstart, fun rounds => ?_⟩
    exact Session.answer_rename (Session.rename_start hstart) (hlaunched.mirrors hf rfl)

/-- A program whose variable has no name in common with anything else. -/
def tallying : String :=
  "LET x = 2; DEF main() DO x = x + 1; print(x); RETURN x; END"

/-- The variable may as well be called `main`. -/
theorem tallying_under_other_names :
    ∃ source a a', (source.fields.map (·.name) = ["x"] ∧
      (source.rename (Equiv.swap "x" "main")).fields.map (·.name) = ["main"] ∧
      (source.rename (Equiv.swap "x" "main")).methods.map (·.name) = ["main"]) ∧
      analyze .withRange source = .ok a ∧
      analyze .withRange (source.rename (Equiv.swap "x" "main")) = .ok a' ∧
      a.SameUpTo (Equiv.swap "x" "main") source a' ∧
      ∀ world, ∃ s, Session.start .withRange world = .ok s ∧ ∀ rounds,
        s.answer rounds (source.rename (Equiv.swap "x" "main")) = s.answer rounds source := by
  have hcompute : (check .withRange tallying).toOption.any fun p =>
      (analyze .withRange (p.source.rename (Equiv.swap "x" "main"))).isOk &&
        decide (p.source.fields.map (·.name) = ["x"] ∧
          (p.source.rename (Equiv.swap "x" "main")).fields.map (·.name) = ["main"] ∧
          (p.source.rename (Equiv.swap "x" "main")).methods.map (·.name) = ["main"]) := by
    decide +kernel
  obtain ⟨p, hp, hcheck⟩ := exists_of_check hcompute
  rw [Bool.and_eq_true, decide_eq_true_eq] at hcheck
  obtain ⟨hok, hnames⟩ := hcheck
  obtain ⟨_, _, hanalyze⟩ := of_check_eq_ok hp
  have hfree := names_of_variables_are_free (Equiv.swap "x" "main").injective .withRange p.source
  cases hrenamed : analyze .withRange (p.source.rename (Equiv.swap "x" "main")) with
  | error e =>
    rw [hrenamed] at hok
    exact nomatch hok
  | ok a' =>
    rw [hanalyze, hrenamed] at hfree
    exact ⟨p.source, p.analysis, a', hnames, hanalyze, hrenamed, hfree⟩

end LetLang
