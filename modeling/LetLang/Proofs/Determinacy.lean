import LetLang.Proofs.SideTable

/-!
# What is in scope determines the types

Two analyses of one method record the same about it, even if they know different functions, as
long as they agree on the functions that both of them know and on the variables.

* `Scopes.Compatible`      two states of scopes that agree so far
* `ExprTyped.determined`   an expression is recorded alike
* `StatementsTyped.paired` so is every expression and declaration in a body
* `MethodTyped.paired`     and a method, with what its body has in it
-/

namespace LetLang

open Scopes

/-! ## Compatible scopes -/

/-- The scopes have the same variables, and no function in two versions. -/
structure Scopes.Compatible (k : Nat) (Γ Γ' : StaticScopes) : Prop where
  left : Located 1 k Γ
  right : Located 1 k Γ'
  vars : ∀ name i, i ≤ k → Γ'.found (·.vars.get? name) i = Γ.found (·.vars.get? name) i
  functions : ∀ key binding binding', Γ.found (·.functions.get? key) 0 = some binding →
    Γ'.found (·.functions.get? key) 0 = some binding' → binding' = binding

namespace Scopes.Compatible

variable {k : Nat} {Γ Γ' Γ₁ Γ₁' : StaticScopes}

/-- Compatible scopes bind the same variables to the same types. -/
private theorem lookup?_eq (h : Compatible k Γ Γ') (name : String) :
    Γ'.lookup? name = Γ.lookup? name := by
  rw [lookup?, lookup?, search_eq_nearest h.left, search_eq_nearest h.right]
  -- The same is found in each of the visible frames, so the nearest ones are the same.
  have hnearest : ∀ j ≤ k, Γ'.nearest 1 (·.vars.get? name) j = Γ.nearest 1 (·.vars.get? name) j := by
    intro j hj
    induction j with
    | zero => simp only [nearest, h.vars name 0 hj]
    | succ j ih => simp only [nearest, h.vars name (1 + j) (by omega), ih (by omega)]
  rw [hnearest k (Nat.le_refl k)]

/-- Functions that both scopes know have one signature. -/
theorem function?_eq (h : Compatible k Γ Γ') {name : String} {arity : Nat}
    {binding binding' : FunctionBinding} (hf : Γ.function? name arity = some binding)
    (hf' : Γ'.function? name arity = some binding') : binding' = binding := by
  rw [Scopes.function?_eq h.left] at hf
  rw [Scopes.function?_eq h.right] at hf'
  exact h.functions _ _ _ hf hf'

/-- Scopes stay compatible in a block. -/
theorem push (h : Compatible k Γ Γ') : Compatible (k + 1) Γ.push Γ'.push where
  left := h.left.push
  right := h.right.push
  vars := by
    intro name i hi
    have hsize := h.left.size_eq
    have hsize' := h.right.size_eq
    by_cases hnew : i = k + 1
    · have hleft := found_pushChildOf_size Γ Γ.current name
      have hright := found_pushChildOf_size Γ' Γ'.current name
      rw [show Γ.frames.size = i by omega] at hleft
      rw [show Γ'.frames.size = i by omega] at hright
      exact hright.trans hleft.symm
    · rw [Scopes.push, Scopes.push, found_pushChildOf_lt _ _ _ (by omega),
        found_pushChildOf_lt _ _ _ (by omega)]
      exact h.vars name i (by omega)
  functions := by
    intro key binding binding' hf hf'
    rw [Scopes.push, found_pushChildOf_lt _ _ _ h.left.rooted.size_pos] at hf
    rw [Scopes.push, found_pushChildOf_lt _ _ _ h.right.rooted.size_pos] at hf'
    exact h.functions key binding binding' hf hf'

/-- Both define the same variable. -/
theorem defineVariable (h : Compatible k Γ Γ') {name : String} {binding : VariableBinding}
    (hd : Γ.defineVariable name binding = .ok Γ₁) (hd' : Γ'.defineVariable name binding = .ok Γ₁') :
    Compatible k Γ₁ Γ₁' := by
  obtain ⟨_, rfl⟩ := defineVariable_eq_ok_iff.mp hd
  obtain ⟨_, rfl⟩ := defineVariable_eq_ok_iff.mp hd'
  have hshape := sameShape_store Γ Γ.current name binding
  have hshape' := sameShape_store Γ' Γ'.current name binding
  refine ⟨hshape.located h.left, hshape'.located h.right, ?_, ?_⟩
  · intro name' i hi
    obtain ⟨f, hf⟩ := h.left.frame (Nat.le_refl k)
    obtain ⟨f', hf'⟩ := h.right.frame (Nat.le_refl k)
    rw [← h.left.current_eq] at hf
    rw [← h.right.current_eq] at hf'
    rw [found_store hf, found_store hf', h.left.current_eq, h.right.current_eq, h.vars name' i hi]
  · intro key f f' hf hf'
    rw [hshape.found_function] at hf
    rw [hshape'.found_function] at hf'
    exact h.functions key f f' hf hf'

/-- Both define the same function globally. -/
theorem redefineFunction (h : Compatible 0 Γ Γ') (name : String) (arity : Nat)
    (binding : FunctionBinding) :
    Compatible 0 (Γ.redefineFunction name arity binding)
      (Γ'.redefineFunction name arity binding) where
  left := h.left.redefineFunction name arity binding
  right := h.right.redefineFunction name arity binding
  vars := by
    intro name' i hi
    rw [found_var_redefineFunction, found_var_redefineFunction]
    exact h.vars name' i hi
  functions := by
    intro key f f' hf hf'
    rw [found_function_redefineFunction h.left] at hf
    rw [found_function_redefineFunction h.right] at hf'
    by_cases hkey : key = (name, arity)
    · rw [if_pos hkey] at hf hf'
      exact Option.some.inj (hf'.symm.trans hf)
    · rw [if_neg hkey] at hf hf'
      exact h.functions key f f' hf hf'

end Scopes.Compatible

/-! ## Expressions -/

/-- Both tables have the same entry for the node, as far as it is due to have one. -/
structure Analysis.SameAt (a a' : Analysis) (n : Expr) : Prop where
  type : a'.type? n.id = a.type? n.id
  binding : n.isAccess = true → a'.binding? n.id = a.binding? n.id
  function : n.isCall = true → a'.function? n.id = a.function? n.id

section Determinacy

variable {r : Registry} {a a' : Analysis} {k : Nat} {Γ Γ' : StaticScopes}

/-- An expression has one type, and one entry, in compatible scopes. -/
theorem ExprTyped.determined (hΓ : Compatible k Γ Γ') : ∀ {e : Expr} {ty ty' : Ty},
    ExprTyped (a.rules r) Γ e ty → ExprTyped (a'.rules r) Γ' e ty' → ty' = ty ∧ a.SameAt a' e
  | .literal .., _, _, .literal htype hnoted, .literal htype' hnoted' => by
    have hty := Except.ok.inj (htype'.symm.trans htype)
    exact ⟨hty, hnoted'.trans (hty ▸ hnoted.symm), (fun h => nomatch h), (fun h => nomatch h)⟩
  | .group .., _, _, .group _ hinner hnoted, .group _ hinner' hnoted' => by
    obtain ⟨hty, _⟩ := ExprTyped.determined hΓ hinner hinner'
    exact ⟨hty, hnoted'.trans (hty ▸ hnoted.symm), (fun h => nomatch h), (fun h => nomatch h)⟩
  | .binary .., _, _, .binary hleft hright htype hnoted, .binary hleft' hright' htype' hnoted' => by
    obtain ⟨rfl, _⟩ := ExprTyped.determined hΓ hleft hleft'
    obtain ⟨rfl, _⟩ := ExprTyped.determined hΓ hright hright'
    have hty := Except.ok.inj (htype'.symm.trans htype)
    exact ⟨hty, hnoted'.trans (hty ▸ hnoted.symm), (fun h => nomatch h), (fun h => nomatch h)⟩
  -- Names are where the two derivations could differ, and compatible scopes rule it out.
  | .var .., _, _, .var hlookup hbinding hnoted, .var hlookup' hbinding' hnoted' => by
    rw [hΓ.lookup?_eq, hlookup] at hlookup'
    cases hlookup'
    exact ⟨rfl, hnoted'.trans hnoted.symm, fun _ => hbinding'.trans hbinding.symm,
      (fun h => nomatch h)⟩
  | .field .., _, _, .field hreceiver hfield hbinding hnoted,
      .field hreceiver' hfield' hbinding' hnoted' => by
    obtain ⟨rfl, _⟩ := ExprTyped.determined hΓ hreceiver hreceiver'
    have hty := Option.some.inj (hfield'.symm.trans hfield)
    subst hty
    exact ⟨rfl, hnoted'.trans hnoted.symm, fun _ => hbinding'.trans hbinding.symm,
      (fun h => nomatch h)⟩
  | .call .., _, _, .call hfunction _ hbinding hnoted, .call hfunction' _ hbinding' hnoted' => by
    obtain rfl := hΓ.function?_eq hfunction hfunction'
    exact ⟨rfl, hnoted'.trans hnoted.symm, (fun h => nomatch h),
      fun _ => hbinding'.trans hbinding.symm⟩
  -- The type of the receiver, which is the same, decides which member is meant.
  | .invoke .., _, _, .invoke hreceiver hmethod _ hbinding hnoted,
      .invoke hreceiver' hmethod' _ hbinding' hnoted' => by
    obtain ⟨rfl, _⟩ := ExprTyped.determined hΓ hreceiver hreceiver'
    have hnative := Option.some.inj (hmethod'.symm.trans hmethod)
    subst hnative
    exact ⟨rfl, hnoted'.trans hnoted.symm, (fun h => nomatch h),
      fun _ => hbinding'.trans hbinding.symm⟩

/-- Two derivations for an expression agree on every node inside it. -/
private theorem ExprTyped.sameAt (hΓ : Compatible k Γ Γ') {e : Expr} {ty ty' : Ty}
    (h : ExprTyped (a.rules r) Γ e ty) (h' : ExprTyped (a'.rules r) Γ' e ty') :
    ∀ n ∈ e.nodes, a.SameAt a' n := by
  intro n hn
  obtain ⟨_, hnode⟩ := h.of_mem_nodes n hn
  obtain ⟨_, hnode'⟩ := h'.of_mem_nodes n hn
  exact (hnode.determined hΓ hnode').2

/-! ## Statements -/

/-- The two tables agree on expressions and declarations. -/
structure Analysis.SameOn (a a' : Analysis) (exprs : List Expr) (declarations : List Declaration) :
    Prop where
  exprs : ∀ e ∈ exprs, ∀ n ∈ e.nodes, a.SameAt a' n
  declarations : ∀ d ∈ declarations, a'.binding? d.id = a.binding? d.id

/-- Agreement on two parts is agreement on both. -/
theorem Analysis.SameOn.append {es es' : List Expr} {ds ds' : List Declaration}
    (h : a.SameOn a' es ds) (h' : a.SameOn a' es' ds') : a.SameOn a' (es ++ es') (ds ++ ds') :=
  ⟨List.forall_mem_append.mpr ⟨h.exprs, h'.exprs⟩,
    List.forall_mem_append.mpr ⟨h.declarations, h'.declarations⟩⟩

/-- One expression more. -/
theorem Analysis.SameOn.cons {e : Expr} {es : List Expr} {ds : List Declaration}
    (h : a.SameOn a' es ds) (he : ∀ n ∈ e.nodes, a.SameAt a' n) : a.SameOn a' (e :: es) ds :=
  ⟨List.forall_mem_cons.mpr ⟨he, h.exprs⟩, h.declarations⟩

theorem Analysis.SameOn.nil : a.SameOn a' [] [] :=
  ⟨(fun _ h => nomatch h), (fun _ h => nomatch h)⟩

/-- A declaration makes the same variable. -/
theorem DeclarationTyped.paired (hΓ : Compatible k Γ Γ') {d : Declaration} {Γ₁ Γ₁' : StaticScopes}
    (h : DeclarationTyped (a.rules r) Γ d Γ₁) (h' : DeclarationTyped (a'.rules r) Γ' d Γ₁') :
    Compatible k Γ₁ Γ₁' ∧ a.SameOn a' d.initializer.toList [d] := by
  have hexprs : ∀ e ∈ d.initializer.toList, ∀ n ∈ e.nodes, a.SameAt a' n := by
    intro e he
    obtain ⟨_, htyped⟩ := h.initializer (Option.mem_toList.mp he)
    obtain ⟨_, htyped'⟩ := h'.initializer (Option.mem_toList.mp he)
    exact htyped.sameAt hΓ htyped'
  obtain @⟨ty, hinitial, hdefine, hnoted⟩ := h
  obtain @⟨ty', hinitial', hdefine', hnoted'⟩ := h'
  -- The type is that of the annotation, or else that of the initial value.
  have hty : ty' = ty := by
    generalize d.typeName = typeName at hinitial hinitial'
    generalize d.initializer = initializer at hinitial hinitial'
    cases hinitial with
    | annotated hresolve _ _ =>
      cases hinitial' with
      | annotated hresolve' _ _ => exact Option.some.inj (hresolve'.symm.trans hresolve)
    | bare hresolve _ =>
      cases hinitial' with
      | bare hresolve' _ => exact Option.some.inj (hresolve'.symm.trans hresolve)
    | inferred htyped =>
      cases hinitial' with
      | inferred htyped' => exact (htyped.determined hΓ htyped').1
  subst hty
  refine ⟨hΓ.defineVariable hdefine hdefine', hexprs, ?_⟩
  rw [List.forall_mem_singleton]
  exact hnoted'.trans hnoted.symm

mutual

/-- Two derivations for a statement agree on its nodes, and the scopes after it are compatible. -/
theorem StatementTyped.paired {returns returns' : Ty} : ∀ {s : Statement} {k : Nat}
    {Γ Γ' Γ₁ Γ₁' : StaticScopes}, Compatible k Γ Γ' → StatementTyped (a.rules r) returns Γ s Γ₁ →
    StatementTyped (a'.rules r) returns' Γ' s Γ₁' →
    Compatible k Γ₁ Γ₁' ∧ a.SameOn a' s.exprs s.declarations
  | .expression _, _, _, _, _, _, hΓ, .expression hvalue, .expression hvalue' =>
    ⟨hΓ, .cons .nil (hvalue.sameAt hΓ hvalue')⟩
  | .declare _, _, _, _, _, _, hΓ, .declare hd, .declare hd' => hd.paired hΓ hd'
  | .assign .., _, _, _, _, _, hΓ, .assign _ htarget hvalue _, .assign _ htarget' hvalue' _ =>
    ⟨hΓ, .cons (.cons .nil (hvalue.sameAt hΓ hvalue')) (htarget.sameAt hΓ htarget')⟩
  | .ifElse .., _, _, _, _, _, hΓ, .ifElse hcondition _ hthen helse,
      .ifElse hcondition' _ hthen' helse' =>
    ⟨hΓ, .cons ((hthen.paired hΓ.push hthen').2.append (helse.paired hΓ.push helse').2)
      (hcondition.sameAt hΓ hcondition')⟩
  | .forIn .., _, _, _, _, _, hΓ, .forIn hiterable _ hdefine hbody,
      .forIn hiterable' _ hdefine' hbody' =>
    ⟨hΓ, .cons (hbody.paired (hΓ.push.defineVariable hdefine hdefine') hbody').2
      (hiterable.sameAt hΓ hiterable')⟩
  | .whileDo .., _, _, _, _, _, hΓ, .whileDo hcondition _ hbody, .whileDo hcondition' _ hbody' =>
    ⟨hΓ, .cons (hbody.paired hΓ.push hbody').2 (hcondition.sameAt hΓ hcondition')⟩
  | .returns _, _, _, _, _, _, hΓ, .returns hvalue _, .returns hvalue' _ =>
    ⟨hΓ, .cons .nil (hvalue.sameAt hΓ hvalue')⟩

/-- Two derivations for statements in a row agree on all nodes. -/
theorem StatementsTyped.paired {returns returns' : Ty} : ∀ {body : List Statement} {k : Nat}
    {Γ Γ' Γ₁ Γ₁' : StaticScopes}, Compatible k Γ Γ' → StatementsTyped (a.rules r) returns Γ body Γ₁ →
    StatementsTyped (a'.rules r) returns' Γ' body Γ₁' →
    Compatible k Γ₁ Γ₁' ∧ a.SameOn a' (Statement.listExprs body) (Statement.declarationsAll body)
  | [], _, _, _, _, _, hΓ, .nil, .nil => ⟨hΓ, .nil⟩
  | _ :: _, _, _, _, _, _, hΓ, .cons hs hrest, .cons hs' hrest' => by
    obtain ⟨hΓ₁, hsame⟩ := hs.paired hΓ hs'
    obtain ⟨hΓ₂, hsame'⟩ := hrest.paired hΓ₁ hrest'
    exact ⟨hΓ₂, hsame.append hsame'⟩

end

/-! ## Methods -/

/-- An annotation stands for one type. -/
theorem Registry.Annotates.determined {otherwise ty ty' : Ty} {typeName : Option String}
    (h : r.Annotates otherwise typeName ty) (h' : r.Annotates otherwise typeName ty') :
    ty' = ty := by
  cases typeName with
  | none => exact Eq.trans h' (Eq.symm h)
  | some name => exact Option.some.inj (Eq.trans (Eq.symm h') h)

/-- The annotations of parameters stand for one list of types. -/
private theorem Registry.Annotates.determined_all :
    ∀ {parameters : List Parameter} {types types' : List Ty},
    List.Forall₂ (fun p => r.Annotates .any p.typeName) parameters types →
    List.Forall₂ (fun p => r.Annotates .any p.typeName) parameters types' → types' = types
  | [], _, _, .nil, .nil => rfl
  | _ :: _, _, _, .cons h hrest, .cons h' hrest' => by
    rw [h.determined h', determined_all hrest hrest']

/-- The same parameters on compatible scopes leave compatible scopes. -/
theorem ParametersTyped.compatible : ∀ {parameters : List Parameter} {types : List Ty} {k : Nat}
    {Γ Γ' Γ₁ Γ₁' : StaticScopes}, Compatible k Γ Γ' → ParametersTyped Γ parameters types Γ₁ →
    ParametersTyped Γ' parameters types Γ₁' → Compatible k Γ₁ Γ₁'
  | [], _, _, _, _, _, _, hΓ, .nil, .nil => hΓ
  | _ :: _, _, _, _, _, _, _, hΓ, .cons hdefine hrest, .cons hdefine' hrest' =>
    hrest.compatible (hΓ.defineVariable hdefine hdefine') hrest'

mutual

/-- What a statement returns is among its expressions. -/
private theorem Statement.returned_subset : ∀ s : Statement, s.returned ⊆ s.exprs
  | .expression _ | .declare _ | .assign .. => List.nil_subset _
  | .returns _ => List.Subset.refl _
  | .ifElse _ thenBody elseBody => by
    intro v hv
    obtain hv | hv := List.mem_append.mp hv
    · have hthen := Statement.returnedAll_subset thenBody hv
      simp [Statement.exprs, hthen]
    · have helse := Statement.returnedAll_subset elseBody hv
      simp [Statement.exprs, helse]
  | .forIn _ _ body | .whileDo _ body =>
    fun _ hv => List.mem_cons_of_mem _ (Statement.returnedAll_subset body hv)

/-- What is returned is one of the expressions. -/
private theorem Statement.returnedAll_subset : ∀ body : List Statement,
    Statement.returnedAll body ⊆ Statement.listExprs body
  | [] => List.nil_subset _
  | s :: rest => by
    intro v hv
    obtain hv | hv := List.mem_append.mp hv
    · exact List.mem_append_left _ (Statement.returned_subset s hv)
    · exact List.mem_append_right _ (Statement.returnedAll_subset rest hv)

end

private theorem Expr.self_mem_nodes (e : Expr) : e ∈ e.nodes := by
  cases e <;> simp [Expr.nodes]

/-- A method whose body is recorded alike returns the same type. -/
theorem Rules.Returns.determined {m : Method} {returns returns' : Ty}
    (h : (a.rules r).Returns m returns) (h' : (a'.rules r).Returns m returns')
    (hsame : a.SameOn a' (Statement.listExprs m.body) (Statement.declarationsAll m.body)) :
    returns' = returns := by
  unfold Rules.Returns at h h'
  cases hname : m.returnTypeName with
  | some name =>
    rw [hname] at h h'
    exact Option.some.inj (Eq.trans (Eq.symm h') h)
  | none =>
    rw [hname] at h h'
    cases hvalues : Statement.returnedAll m.body with
    | nil =>
      rw [hvalues] at h h'
      exact Eq.trans h' (Eq.symm h)
    | cons value rest =>
      rw [hvalues] at h h'
      have hmem : value ∈ Statement.listExprs m.body :=
        Statement.returnedAll_subset m.body (by rw [hvalues]; exact List.mem_cons_self)
      have htype := (hsame.exprs value hmem value value.self_mem_nodes).type
      exact Option.some.inj (Eq.trans (Eq.symm h') (htype.trans h))

/-- A method is recorded alike, and so is its body. -/
theorem MethodTyped.paired (hΓ : Compatible 0 Γ Γ') {m : Method} {signature signature' : Signature}
    {Γ₁ Γ₁' : StaticScopes} (h : MethodTyped (a.rules r) Γ m signature Γ₁)
    (h' : MethodTyped (a'.rules r) Γ' m signature' Γ₁') :
    a'.function? m.id = a.function? m.id ∧
      a.SameOn a' (Statement.listExprs m.body) (Statement.declarationsAll m.body) := by
  obtain @⟨parameters, provisional, returns, _, _, _, hannotated, hprovisional, hreturns, hdefine,
    _, hparameters, hbody, hnoted⟩ := h
  obtain @⟨parameters', provisional', returns', _, _, _, hannotated', hprovisional', hreturns',
    hdefine', _, hparameters', hbody', hnoted'⟩ := h'
  obtain rfl := Registry.Annotates.determined_all hannotated hannotated'
  obtain rfl := hprovisional.determined hprovisional'
  obtain ⟨_, rfl⟩ := defineFunction_eq_ok_iff.mp hdefine
  obtain ⟨_, rfl⟩ := defineFunction_eq_ok_iff.mp hdefine'
  have hΓ₂ := hparameters.compatible (hΓ.redefineFunction _ _ _).push hparameters'
  have hsame := (hbody.paired hΓ₂ hbody').2
  obtain rfl := hreturns.determined hreturns' hsame
  exact ⟨hnoted'.trans hnoted.symm, hsame⟩

end Determinacy

end LetLang
