import LetLang.Proofs.Numbering
import LetLang.Proofs.Typing
import LetLang.Proofs.Yield

/-! # What a check leaves behind

Checking an expression changes nothing but the side table, and there it only adds records about
the nodes of the expression: a type for each of them, a variable for an access and a function
for a call.  Statements and methods also change the scopes and the type to return.

This is said for any relation `S` between the states before and after a step.  If `S` holds of
every single record, then `Leaves S` holds of whatever is put together from them.

* `leaves_expression`   checking an expression, if `S` allows records about its nodes
* `leaves_source`       checking a program, if `S` also allows any change of the scopes
-/

namespace LetLang

/-- `S` holds of doing nothing, of one step after another, and of recording a type for the nodes
    in `T`, a variable for those in `V` and a function for those in `F`. -/
structure Footprint (S : Checker → Checker → Prop) (T V F : NodeId → Prop) : Prop where
  refl : ∀ c, S c c
  trans : ∀ {c c' c''}, S c c' → S c' c'' → S c c''
  type : ∀ c {id} ty, T id → S c { c with analysis.types := c.analysis.types.insert id ty }
  binding : ∀ c {id} b, V id → S c { c with analysis.vars := c.analysis.vars.insert id b }
  function : ∀ c {id} f, F id → S c { c with analysis.functions := c.analysis.functions.insert id f }

/-- `S` holds of any change of the scopes and of the type to return. -/
structure TableOnly (S : Checker → Checker → Prop) : Prop where
  scopes : ∀ c Γ, S c { c with scopes := Γ }
  expected : ∀ c ty, S c { c with expected := ty }

/-- The records that the checker makes about a node are among those that are counted. -/
structure Expr.Permitted (T V F : NodeId → Prop) (e : Expr) : Prop where
  type : T e.id
  binding : e.isAccess = true → V e.id
  function : e.isCall = true → F e.id

/-- Where every id may be recorded, every node is permitted. -/
theorem Expr.permitted_all (e : Expr) :
    e.Permitted (fun _ => True) (fun _ => True) (fun _ => True) :=
  ⟨trivial, fun _ => trivial, fun _ => trivial⟩

namespace Check

variable {α β : Type} {S : Checker → Checker → Prop} {T V F : NodeId → Prop} {r : Registry}

/-- However the step starts, `S` holds between its start and its end. -/
def Leaves (S : Checker → Checker → Prop) (x : Check α) : Prop :=
  ∀ c, Ends x c (fun _ c' => S c c') fun _ _ => True

section Rules

variable (hS : Footprint S T V F)

include hS

/-- Checks that leave a footprint can be put in sequence. -/
theorem Leaves.bind {x : Check α} {f : α → Check β} (hx : Leaves S x)
    (hf : ∀ a, Leaves S (f a)) : Leaves S (x >>= f) := by
  intro c
  refine (hx c).bind fun a c₁ _ h₁ => ?_
  exact (hf a c₁).mono fun _ _ _ h₂ => hS.trans h₁ h₂

private theorem leaves_pure (a : α) : Leaves S (pure a : Check α) := fun c => hS.refl c

omit hS in
private theorem leaves_throw (e : SemanticError) : Leaves S (throw e : Check α) := fun _ => trivial

/-- A step that goes on from what the state is. -/
private theorem leaves_get {f : Checker → Check α} (hf : ∀ c, Leaves S (f c)) :
    Leaves S (do f (← get)) :=
  Leaves.bind hS (fun c => hS.refl c) hf

/-- A step that may fail leaves nothing. -/
private theorem leaves_ofExcept (x : Except SemanticError α) : Leaves S (ofExcept x) := by
  cases x with
  | ok a => exact leaves_pure hS a
  | error e => exact leaves_throw e

private theorem leaves_ensure (condition : Bool) (e : SemanticError) :
    Leaves S (ensure condition e) := by
  cases condition with
  | true => exact leaves_pure hS ()
  | false => exact leaves_throw e

/-- Comparing two types records nothing. -/
private theorem leaves_require (target actual : Ty) : Leaves S (require target actual) :=
  leaves_ofExcept hS _

/-- Recording a type is permitted where the id is. -/
private theorem leaves_recordType {id : NodeId} (hid : T id) (ty : Ty) :
    Leaves S (recordType id ty) :=
  fun c => hS.type c ty hid

private theorem leaves_recordVariable {id : NodeId} (hid : V id) (binding : VariableBinding) :
    Leaves S (recordVariable id binding) := fun c => hS.binding c binding hid

private theorem leaves_recordFunction {id : NodeId} (hid : F id) (binding : FunctionBinding) :
    Leaves S (recordFunction id binding) := fun c => hS.function c binding hid

/-- A loop leaves what its rounds leave. -/
private theorem leaves_forM {f : α → Check Unit} {l : List α}
    (hf : ∀ a ∈ l, Leaves S (f a)) : Leaves S (l.forM f) := by
  induction l with
  | nil => exact leaves_pure hS ()
  | cons a l ih =>
    exact (hf a List.mem_cons_self).bind hS fun _ =>
      ih fun b hb => hf b (List.mem_cons_of_mem a hb)

/-- Looking up the name of a type records nothing. -/
private theorem leaves_resolve (typeName : Option String) : Leaves S (resolve r typeName) := by
  cases typeName with
  | none => exact leaves_pure hS none
  | some name =>
    rw [resolve]
    cases r.resolve? name with
    | none => exact leaves_throw _
    | some ty => exact leaves_pure hS (some ty)

private theorem leaves_parameterTypes : ∀ parameters : List Parameter,
    Leaves S (parameterTypes r parameters)
  | [] => leaves_pure hS []
  | p :: rest => by
    rw [parameterTypes]
    refine (leaves_resolve hS _).bind hS fun ty => ?_
    refine (leaves_parameterTypes rest).bind hS fun types => ?_
    exact leaves_pure hS _

/-- The check for `main` only reads the functions. -/
private theorem leaves_requireMain : Leaves S requireMain := by
  refine leaves_get hS fun c => ?_
  cases c.scopes.function? "main" 0 with
  | none => exact leaves_throw _
  | some binding => exact leaves_require hS _ _

/-! ## Expressions -/

mutual

/-- The analysis of an expression records at its own nodes only. -/
theorem leaves_expression : ∀ e : Expr, (∀ n ∈ e.nodes, n.Permitted T V F) →
    Leaves S (expression r e)
  | .literal id value, h => by
    rw [expression]
    simp only [Expr.nodes, List.forall_mem_singleton] at h
    exact (leaves_ofExcept hS _).bind hS fun ty => leaves_recordType hS h.type ty
  | .group id inner, h => by
    rw [expression]
    simp only [Expr.nodes, List.forall_mem_append, List.forall_mem_singleton] at h
    obtain ⟨hinner, hid⟩ := h
    -- What is in parentheses has nodes of its own, and the parentheses are one more.
    refine (leaves_ensure hS _ _).bind hS fun _ => ?_
    exact (leaves_expression inner hinner).bind hS fun ty => leaves_recordType hS hid.type ty
  | .binary id operator left right, h => by
    rw [expression]
    simp only [Expr.nodes, List.forall_mem_append, List.forall_mem_singleton] at h
    obtain ⟨⟨hleft, hright⟩, hid⟩ := h
    refine (leaves_expression left hleft).bind hS fun leftType => ?_
    refine (leaves_expression right hright).bind hS fun rightType => ?_
    exact (leaves_ofExcept hS _).bind hS fun ty => leaves_recordType hS hid.type ty
  | .var id name, h => by
    rw [expression]
    simp only [Expr.nodes, List.forall_mem_singleton] at h
    -- The two lookups, of a variable and of a function, either fail or give the binding to record.
    refine leaves_get hS fun c => ?_
    cases c.scopes.lookup? name with
    | none => exact leaves_throw _
    | some binding =>
      exact (leaves_recordVariable hS (h.binding rfl) binding).bind hS fun _ =>
        leaves_recordType hS h.type _
  | .field id receiver name, h => by
    rw [expression]
    simp only [Expr.nodes, List.forall_mem_append, List.forall_mem_singleton] at h
    obtain ⟨hreceiver, hid⟩ := h
    refine (leaves_expression receiver hreceiver).bind hS fun receiverType => ?_
    cases receiverType.field? r.objects name with
    | none => exact leaves_throw _
    | some ty =>
      exact (leaves_recordVariable hS (hid.binding rfl) _).bind hS fun _ =>
        leaves_recordType hS hid.type ty
  | .call id name items, h => by
    rw [expression]
    simp only [Expr.nodes, List.forall_mem_append, List.forall_mem_singleton] at h
    obtain ⟨hitems, hid⟩ := h
    refine leaves_get hS fun c => ?_
    cases c.scopes.function? name items.length with
    | none => exact leaves_throw _
    | some binding =>
      refine (leaves_arguments items _ hitems).bind hS fun _ => ?_
      exact (leaves_recordFunction hS (hid.function rfl) binding).bind hS fun _ =>
        leaves_recordType hS hid.type _
  | .invoke id receiver name items, h => by
    rw [expression]
    simp only [Expr.nodes, List.forall_mem_append, List.forall_mem_singleton] at h
    -- The receiver, the arguments and then the call itself are recorded.
    obtain ⟨⟨hreceiver, hitems⟩, hid⟩ := h
    refine (leaves_expression receiver hreceiver).bind hS fun receiverType => ?_
    dsimp only
    cases receiverType.method? r.objects name (items.length + 1) with
    | none => exact leaves_throw _
    | some native =>
      refine (leaves_arguments items _ hitems).bind hS fun _ => ?_
      exact (leaves_recordFunction hS (hid.function rfl) _).bind hS fun _ =>
        leaves_recordType hS hid.type _

/-- The analysis of arguments records at their nodes only. -/
private theorem leaves_arguments : ∀ (items : List Expr) (parameters : List Ty),
    (∀ n ∈ Expr.nodesAll items, n.Permitted T V F) → Leaves S (arguments r items parameters)
  | [], parameters, _ => by
    rw [arguments]
    · exact leaves_pure hS ()
    · exact fun _ _ _ _ h _ => nomatch h
  | item :: items, [], _ => by
    rw [arguments]
    · exact leaves_pure hS ()
    · exact fun _ _ _ _ _ h => nomatch h
  | item :: items, parameter :: parameters, h => by
    rw [arguments]
    simp only [Expr.nodesAll, List.forall_mem_append] at h
    obtain ⟨hitem, hitems⟩ := h
    refine (leaves_expression item hitem).bind hS fun actual => ?_
    exact (leaves_require hS parameter actual).bind hS fun _ =>
      leaves_arguments items parameters hitems

end

end Rules

/-! ## Statements and programs -/

section Statements

variable (hS : Footprint S T V F)

/-- A change of the scopes is free wherever the footprint is about the table only. -/
private theorem leaves_changeScopes (hΓ : ∀ c Γ, S c { c with scopes := Γ })
    (f : StaticScopes → Except ScopeError StaticScopes) : Leaves S (changeScopes f) := by
  intro c
  unfold Ends changeScopes
  cases f c.scopes with
  | ok Γ => exact hΓ c Γ
  | error e => trivial

include hS

private theorem leaves_inBlock (hO : TableOnly S) {body : Check Unit} (h : Leaves S body) :
    Leaves S (inBlock body) := by
  have hpush : Leaves S (modify fun s => { s with scopes := s.scopes.push }) :=
    fun c => hO.scopes c _
  have hpop : Leaves S (modify fun s => { s with scopes := s.scopes.pop }) :=
    fun c => hO.scopes c _
  exact hpush.bind hS fun _ => h.bind hS fun _ => hpop

/-- A declaration records its own id and the nodes of its initializer. -/
theorem leaves_declaration (hΓ : ∀ c Γ, S c { c with scopes := Γ }) {d : Declaration}
    (hnodes : ∀ e ∈ d.initializer, ∀ n ∈ e.nodes, n.Permitted T V F) (hd : V d.id) :
    Leaves S (declaration r d) := by
  -- The initializer is recorded under its own nodes, the declaration under its id.
  have hinitializer : Leaves S (initializer r d.initializer) := by
    cases hvalue : d.initializer with
    | none => exact leaves_pure hS none
    | some value =>
      intro c
      exact ends_map.mpr (leaves_expression hS value (hnodes value hvalue) c)
  refine (leaves_resolve hS _).bind hS fun declared => ?_
  refine hinitializer.bind hS fun actual => ?_
  refine (leaves_ofExcept hS _).bind hS fun ty => ?_
  refine (leaves_changeScopes hΓ _).bind hS fun _ => ?_
  exact leaves_recordVariable hS hd _

/-- A value that is returned may fix the type to return, which is not in the table. -/
private theorem leaves_returned (hO : TableOnly S) (actual : Ty) : Leaves S (returned actual) := by
  refine leaves_get hS fun c => ?_
  cases c.expected with
  | some expected => exact leaves_require hS expected actual
  | none => exact fun c => hO.expected c (some actual)

mutual

/-- A statement records at the nodes of its expressions and at its declarations. -/
private theorem leaves_statement (hO : TableOnly S) : ∀ s : Statement,
    (∀ e ∈ s.exprs, ∀ n ∈ e.nodes, n.Permitted T V F) → (∀ d ∈ s.declarations, V d.id) →
    Leaves S (statement r s)
  | .expression value, he, hd => by
    rw [statement]
    refine (leaves_ensure hS _ _).bind hS fun _ => ?_
    have hvalue := he value (by simp [Statement.exprs])
    exact fun c => ends_discard.mpr (leaves_expression hS value hvalue c)
  | .declare d, he, hd => by
    rw [statement]
    simp only [Statement.exprs, Option.mem_toList] at he
    -- Of all statements only a declaration is recorded itself.
    exact leaves_declaration hS hO.scopes he (hd d (by simp [Statement.declarations]))
  | .assign target value, he, hd => by
    rw [statement]
    simp only [Statement.exprs, List.forall_mem_cons] at he
    refine (leaves_ensure hS _ _).bind hS fun _ => ?_
    refine (leaves_expression hS target he.1).bind hS fun _ => ?_
    refine (leaves_expression hS value he.2.1).bind hS fun _ => ?_
    exact leaves_require hS _ _
  | .ifElse condition thenBody elseBody, he, hd => by
    rw [statement]
    simp only [Statement.exprs, List.forall_mem_cons, List.forall_mem_append] at he
    simp only [Statement.declarations, List.forall_mem_append] at hd
    refine (leaves_expression hS condition he.1).bind hS fun _ => ?_
    refine (leaves_require hS _ _).bind hS fun _ => ?_
    refine (leaves_ensure hS _ _).bind hS fun _ => ?_
    refine (leaves_inBlock hS hO (leaves_statements hO thenBody he.2.1 hd.1)).bind hS ?_
    exact fun _ => leaves_inBlock hS hO (leaves_statements hO elseBody he.2.2 hd.2)
  | .forIn name iterable body, he, hd => by
    rw [statement]
    simp only [Statement.exprs, List.forall_mem_cons] at he
    refine (leaves_expression hS iterable he.1).bind hS fun _ => ?_
    refine (leaves_require hS _ _).bind hS fun _ => ?_
    refine (leaves_ensure hS _ _).bind hS fun _ => ?_
    -- The variable of the loop is bound without being recorded: it has no node of its own.
    refine leaves_inBlock hS hO ?_
    exact (leaves_changeScopes hO.scopes _).bind hS fun _ =>
      leaves_statements hO body he.2 hd
  | .whileDo condition body, he, hd => by
    rw [statement]
    simp only [Statement.exprs, List.forall_mem_cons] at he
    refine (leaves_expression hS condition he.1).bind hS fun _ => ?_
    refine (leaves_require hS _ _).bind hS fun _ => ?_
    refine (leaves_ensure hS _ _).bind hS fun _ => ?_
    exact leaves_inBlock hS hO (leaves_statements hO body he.2 hd)
  | .returns value, he, hd => by
    rw [statement]
    have hvalue := he value (by simp [Statement.exprs])
    exact (leaves_expression hS value hvalue).bind hS fun _ =>
      leaves_returned hS hO _

/-- Statements in a row record at their own nodes and declarations. -/
private theorem leaves_statements (hO : TableOnly S) : ∀ body : List Statement,
    (∀ e ∈ Statement.listExprs body, ∀ n ∈ e.nodes, n.Permitted T V F) →
    (∀ d ∈ Statement.declarationsAll body, V d.id) → Leaves S (statements r body)
  | [], _, _ => by
    rw [statements]
    exact leaves_pure hS ()
  | s :: rest, he, hd => by
    rw [statements]
    simp only [Statement.listExprs, List.forall_mem_append] at he
    simp only [Statement.declarationsAll, List.forall_mem_append] at hd
    exact (leaves_statement hO s he.1 hd.1).bind hS fun _ =>
      leaves_statements hO rest he.2 hd.2

end

theorem leaves_defineParameters (hΓ : ∀ c Γ, S c { c with scopes := Γ })
    (parameters : List Parameter) (types : List Ty) :
    Leaves S (defineParameters parameters types) := by
  fun_induction defineParameters parameters types with
  | case1 p ps ty types ih =>
    exact (leaves_changeScopes hΓ _).bind hS fun _ => ih
  | case2 => exact leaves_pure hS ()

/-- A method records its own id as well. -/
private theorem leaves_method (hO : TableOnly S) {m : Method}
    (he : ∀ e ∈ Statement.listExprs m.body, ∀ n ∈ e.nodes, n.Permitted T V F)
    (hd : ∀ d ∈ Statement.declarationsAll m.body, V d.id) (hm : F m.id) :
    Leaves S (method r m) := by
  refine (leaves_parameterTypes hS _).bind hS fun parameters => ?_
  refine (leaves_resolve hS _).bind hS fun declared => ?_
  refine (leaves_changeScopes hO.scopes _).bind hS fun _ => ?_
  have hexpect : Leaves S (modify fun s => { s with expected := declared }) :=
    fun c => hO.expected c declared
  refine hexpect.bind hS fun _ => ?_
  -- Before the body only the scopes and the expected type are changed.
  have hbody := (leaves_defineParameters hS hO.scopes m.parameters parameters).bind hS
    fun _ => leaves_statements (r := r) hS hO m.body he hd
  refine (leaves_inBlock hS hO hbody).bind hS fun _ => ?_
  refine leaves_get hS fun c => ?_
  have hredefine : Leaves S (modify fun s => { s with
      scopes := s.scopes.redefineFunction m.name parameters.length
        ⟨m.name, ⟨parameters, c.expected.getD .nil⟩⟩ }) := fun c => hO.scopes c _
  exact hredefine.bind hS fun _ => leaves_recordFunction hS hm _

private theorem leaves_natives (hO : TableOnly S) : ∀ natives : List Native,
    Leaves S (Check.natives natives)
  | [] => leaves_pure hS ()
  | _ :: rest => (leaves_changeScopes hO.scopes _).bind hS fun _ =>
    leaves_natives hO rest

/-- Checking a program records types of expressions, variables of accesses and declarations and
    functions of calls and methods, and nothing else. -/
theorem leaves_source (hO : TableOnly S) {s : Source}
    (he : ∀ e ∈ s.exprs, ∀ n ∈ e.nodes, n.Permitted T V F)
    (hd : ∀ d ∈ s.declarations, V d.id) (hm : ∀ m ∈ s.methods, F m.id) :
    Leaves S (source r s) := by
  simp only [Source.exprs, List.forall_mem_append, List.forall_mem_flatMap] at he
  simp only [Source.declarations, List.forall_mem_append, List.forall_mem_flatMap] at hd
  refine (leaves_natives hS hO _).bind hS fun _ => ?_
  -- Fields first, then methods, each at its own ids.
  have hfields : Leaves S (s.fields.forM (declaration r)) := by
    refine leaves_forM hS fun d hmem => ?_
    exact leaves_declaration hS hO.scopes (fun e hvalue => he.1 d hmem e (by simpa using hvalue))
      (hd.1 d hmem)
  refine hfields.bind hS fun _ => ?_
  have hmethods : Leaves S (s.methods.forM (method r)) :=
    leaves_forM hS fun m hmem =>
      leaves_method hS hO (he.2 m hmem) (hd.2 m hmem) (hm m hmem)
  exact hmethods.bind hS fun _ => leaves_requireMain hS

end Statements

end Check

end LetLang
