import LetLang.Proofs.Derivation
import LetLang.Proofs.TypeSoundness

/-! # The side table of an accepted program

The table that an analysis leaves has an entry exactly where one is due, and its entries hang
together: what is recorded about a node is what the typing rules give for the entries of its
parts.

* `Analysis.Consistent`   the entry of an expression
* `Analysis.Declares`     the entry of a declaration
* `Analysis.Defines`      the entry of a method
* `Callee`                which functions a call can mean in the body of a method
* `analyze_table`         all of this for a parsed program that the analysis accepts

The entries are read off the typing derivation of the program for the rules that go by the table.
That there are no others is a matter of what the checker records, not of typing. -/

namespace LetLang

open Scopes

/-! ## Entries that hang together -/

namespace Analysis

/-- The rules that go by the table, and ask for no initial values. -/
def rules (a : Analysis) (r : Registry) : Rules where
  registry := r
  type := fun id ty => a.type? id = some ty
  binding := fun id binding => a.binding? id = some binding
  function := fun id binding => a.function? id = some binding
  bare := fun _ => True

/-- There is one argument for each parameter, of a recorded type that the parameter takes. -/
def Fits (a : Analysis) (items : List Expr) (parameters : List Ty) : Prop :=
  List.Forall₂ (fun item parameter =>
    ∃ ty, a.type? item.id = some ty ∧ parameter.accepts ty = true) items parameters

/-- What is recorded about an expression follows from what is recorded about its parts. -/
def Consistent (a : Analysis) (r : Registry) : Expr → Prop
  | .literal id value => ∃ ty, a.type? id = some ty ∧ value.type = .ok ty
  | .group id inner =>
    inner.isBinary = true ∧ ∃ ty, a.type? id = some ty ∧ a.type? inner.id = some ty
  | .binary id operator left right =>
    ∃ ty leftType rightType, a.type? id = some ty ∧ a.type? left.id = some leftType ∧
      a.type? right.id = some rightType ∧ operator.type leftType rightType = .ok ty
  | .var id _ => ∃ binding, a.binding? id = some binding ∧ a.type? id = some binding.ty
  | .field id receiver name =>
    ∃ ty receiverType, a.binding? id = some ⟨name, ty⟩ ∧ a.type? id = some ty ∧
      a.type? receiver.id = some receiverType ∧ receiverType.field? r.objects name = some ty
  | .call id _ items =>
    ∃ binding, a.function? id = some binding ∧ a.type? id = some binding.signature.returns ∧
      a.Fits items binding.signature.parameters
  | .invoke id receiver name items =>
    ∃ native receiverType slot parameters, a.function? id = some ⟨name, native.signature⟩ ∧
      a.type? id = some native.signature.returns ∧ a.type? receiver.id = some receiverType ∧
      receiverType.method? r.objects name (items.length + 1) = some native ∧
      -- The receiver takes the first place.
      native.signature.parameters = slot :: parameters ∧ a.Fits items parameters

/-- The variable of a declaration has the declared type, which takes the initial value, or else
    the type of the initial value. -/
def Declares (a : Analysis) (r : Registry) (d : Declaration) : Prop :=
  ∃ ty, a.binding? d.id = some ⟨d.name, ty⟩ ∧
    (∀ value ∈ d.initializer, ∃ actual, a.type? value.id = some actual ∧ ty.accepts actual = true) ∧
    match d.typeName with
    | some name => r.resolve? name = some ty
    | none => ∃ value ∈ d.initializer, a.type? value.id = some ty

/-- A method has the parameters that it declares and returns what it declares, else what its
    first `RETURN` has, else nothing; every value that it returns fits. -/
def Defines (a : Analysis) (r : Registry) (m : Method) : Prop :=
  ∃ parameters returns, a.function? m.id = some ⟨m.name, ⟨parameters, returns⟩⟩ ∧
    List.Forall₂ (fun p => r.Annotates .any p.typeName) m.parameters parameters ∧
    (a.rules r).Returns m returns ∧
    ∀ value ∈ Statement.returnedAll m.body,
      ∃ ty, a.type? value.id = some ty ∧ returns.accepts ty = true

end Analysis

/-- How a method is found: by its name and the number of its parameters. -/
def Method.key (m : Method) : FunctionKey := (m.name, m.parameters.length)

/-- The natives of a registry, as the analysis knows them. -/
def Registry.Provides (r : Registry) (key : FunctionKey) (binding : FunctionBinding) : Prop :=
  ∃ native ∈ r.functions, key = (native.name, native.signature.arity) ∧
    binding = ⟨native.name, native.signature⟩

/-- A function that is known behind the methods `above`: one of `base`, or one of these methods as
    it is recorded. -/
inductive InScope (a : Analysis) (base : FunctionKey → FunctionBinding → Prop)
    (above : List Method) : FunctionKey → FunctionBinding → Prop where
  | base {key binding} : base key binding → InScope a base above key binding
  | method {m binding} : m ∈ above → a.function? m.id = some binding →
    InScope a base above m.key binding

/-- A function that a call in the body of `own` can mean if `above` are the methods above it.  The
    method itself is known by its parameters and the type that it declares, or `Any`. -/
inductive Callee (r : Registry) (a : Analysis) (above : List Method) (own : Method) :
    FunctionKey → FunctionBinding → Prop where
  | known {key binding} : InScope a r.Provides above key binding → Callee r a above own key binding
  | own {parameters returns provisional} :
    a.function? own.id = some ⟨own.name, ⟨parameters, returns⟩⟩ →
    r.Annotates .any own.returnTypeName provisional →
    Callee r a above own own.key ⟨own.name, ⟨parameters, provisional⟩⟩

/-! ## Entries of expressions -/

section Expressions

variable {R : Rules} {Γ : StaticScopes}

mutual

/-- The nodes inside a typed expression are typed in the same scopes. -/
theorem ExprTyped.of_mem_nodes : ∀ {e : Expr} {ty : Ty}, ExprTyped R Γ e ty →
    ∀ n ∈ e.nodes, ∃ ty', ExprTyped R Γ n ty'
  | .literal .., _, h => by
    simp only [Expr.nodes, List.forall_mem_singleton]
    exact ⟨_, h⟩
  -- The nodes of an expression are those of its parts and itself.
  | .group .., _, h => by
    have .group _ hinner _ := h
    simp only [Expr.nodes, List.forall_mem_append, List.forall_mem_singleton]
    exact ⟨hinner.of_mem_nodes, _, h⟩
  | .binary .., _, h => by
    have .binary hleft hright _ _ := h
    simp only [Expr.nodes, List.forall_mem_append, List.forall_mem_singleton]
    exact ⟨⟨hleft.of_mem_nodes, hright.of_mem_nodes⟩, _, h⟩
  | .var .., _, h => by
    simp only [Expr.nodes, List.forall_mem_singleton]
    exact ⟨_, h⟩
  | .field .., _, h => by
    have .field hreceiver _ _ _ := h
    simp only [Expr.nodes, List.forall_mem_append, List.forall_mem_singleton]
    exact ⟨hreceiver.of_mem_nodes, _, h⟩
  | .call .., _, h => by
    have .call _ hitems _ _ := h
    simp only [Expr.nodes, List.forall_mem_append, List.forall_mem_singleton]
    exact ⟨hitems.of_mem_nodes, _, h⟩
  | .invoke .., _, h => by
    have .invoke hreceiver _ hitems _ _ := h
    simp only [Expr.nodes, List.forall_mem_append, List.forall_mem_singleton]
    exact ⟨⟨hreceiver.of_mem_nodes, hitems.of_mem_nodes⟩, _, h⟩

/-- The nodes of arguments are typed as well. -/
theorem ArgumentsTyped.of_mem_nodes : ∀ {items : List Expr} {parameters : List Ty},
    ArgumentsTyped R Γ items parameters → ∀ n ∈ Expr.nodesAll items, ∃ ty, ExprTyped R Γ n ty
  | [], _, _ => by simp [Expr.nodesAll]
  | _ :: _, _, .cons hitem _ hrest => by
    simp only [Expr.nodesAll, List.forall_mem_append]
    exact ⟨hitem.of_mem_nodes, hrest.of_mem_nodes⟩

end

variable {r : Registry} {a : Analysis}

/-- Typed arguments fit the parameters by what the table says of them. -/
theorem ArgumentsTyped.fits : ∀ {items : List Expr} {parameters : List Ty},
    ArgumentsTyped (a.rules r) Γ items parameters → a.Fits items parameters
  | [], _, .nil => .nil
  | _ :: _, _, .cons hitem haccepts hrest => .cons ⟨_, hitem.noted, haccepts⟩ hrest.fits

/-- A typed expression has a consistent entry. -/
theorem ExprTyped.consistent {e : Expr} {ty : Ty} (h : ExprTyped (a.rules r) Γ e ty) :
    a.Consistent r e := by
  cases h with
  | literal htype hnoted => exact ⟨ty, hnoted, htype⟩
  | group hbinary hinner hnoted => exact ⟨hbinary, ty, hnoted, hinner.noted⟩
  | binary hleft hright htype hnoted =>
    exact ⟨ty, _, _, hnoted, hleft.noted, hright.noted, htype⟩
  | var _ hbinding hnoted => exact ⟨_, hbinding, hnoted⟩
  | field hreceiver hfield hbinding hnoted =>
    exact ⟨ty, _, hbinding, hnoted, hreceiver.noted, hfield⟩
  | call _ hitems hfunction hnoted => exact ⟨_, hfunction, hnoted, hitems.fits⟩
  | @invoke _ _ _ items receiverType native hreceiver hmethod hitems hfunction hnoted =>
    -- A method is found by its arity, which counts the receiver, so it has a first parameter.
    obtain ⟨slot, parameters, hparameters⟩ :
        ∃ slot parameters, native.signature.parameters = slot :: parameters := by
      cases receiverType with
      | object ref =>
        obtain ⟨declaration, _, hget⟩ := Option.bind_eq_some_iff.mp hmethod
        exact List.exists_cons_of_length_eq_add_one (declaration.arity_eq _ _ hget)
      | _ => exact nomatch hmethod
    refine ⟨native, receiverType, slot, parameters, hfunction, hnoted, hreceiver.noted, hmethod,
      hparameters, ?_⟩
    have hfits := hitems.fits
    rwa [hparameters] at hfits

end Expressions

/-! ## Which functions are in scope -/

/-- Every function that is found in the scopes satisfies `F`. -/
structure Scopes.Offers (F : FunctionKey → FunctionBinding → Prop) (k : Nat) (Γ : StaticScopes) :
    Prop where
  located : Located 1 k Γ
  offers : ∀ key binding, Γ.found (·.functions.get? key) 0 = some binding → F key binding

namespace Scopes.Offers

variable {F F' : FunctionKey → FunctionBinding → Prop} {k : Nat} {Γ Γ' : StaticScopes}

/-- What is offered may be described more loosely. -/
theorem imp (h : Γ.Offers F k) (hF : ∀ key binding, F key binding → F' key binding) :
    Γ.Offers F' k :=
  ⟨h.located, fun key binding hfound => hF key binding (h.offers key binding hfound)⟩

/-- Scopes that have grown offer the same functions. -/
theorem grows (h : Γ.Offers F k) (hgrows : Grows Γ Γ') : Γ'.Offers F k where
  located := hgrows.shape.located h.located
  offers := fun key binding hfound => by
    rw [hgrows.shape.found_function] at hfound
    exact h.offers key binding hfound

/-- A scope adds no functions. -/
theorem push (h : Γ.Offers F k) : Γ.push.Offers F (k + 1) where
  located := h.located.push
  offers := fun key binding hfound => by
    apply h.offers key binding
    rwa [found, Scopes.push, pushChildOf_frame_lt Γ _ h.located.rooted.size_pos] at hfound

/-- A function that is defined globally is one of those in scope from then on. -/
theorem redefineFunction (h : Γ.Offers F 0) {name : String} {arity : Nat}
    {binding : FunctionBinding} (hF : ∀ key other, key ≠ (name, arity) → F key other → F' key other)
    (hnew : F' (name, arity) binding) : (Γ.redefineFunction name arity binding).Offers F' 0 where
  located := h.located.redefineFunction name arity binding
  offers := fun key other hfound => by
    rw [found_function_redefineFunction h.located] at hfound
    by_cases hkey : key = (name, arity)
    · rw [if_pos hkey] at hfound
      cases hfound
      rwa [hkey]
    · rw [if_neg hkey] at hfound
      exact hF key other hkey (h.offers key other hfound)

/-- A function that is found is one that is offered. -/
theorem function (h : Γ.Offers F k) {name : String} {arity : Nat} {binding : FunctionBinding}
    (hfunction : Γ.function? name arity = some binding) : F (name, arity) binding := by
  rw [function?_eq h.located] at hfunction
  exact h.offers _ _ hfunction

end Scopes.Offers

/-! ## Entries of statements -/

/-- The expressions, declarations and returned values are typed where only functions of `F` are
    in scope. -/
structure Contents (R : Rules) (F : FunctionKey → FunctionBinding → Prop) (returns : Ty)
    (exprs : List Expr) (declarations : List Declaration) (returned : List Expr) : Prop where
  exprs : ∀ e ∈ exprs, ∃ k Γ ty, Γ.Offers F k ∧ ExprTyped R Γ e ty
  declarations : ∀ d ∈ declarations, ∃ Γ Γ', DeclarationTyped R Γ d Γ'
  returned : ∀ value ∈ returned, ∃ Γ ty, ExprTyped R Γ value ty ∧ returns.accepts ty = true

section Statements

variable {R : Rules} {F : FunctionKey → FunctionBinding → Prop} {returns : Ty}

theorem Contents.nil : Contents R F returns [] [] [] := by
  constructor <;> exact fun _ h => nomatch h

/-- The contents of two parts are put together. -/
theorem Contents.append {es es' vs vs' : List Expr} {ds ds' : List Declaration}
    (h : Contents R F returns es ds vs) (h' : Contents R F returns es' ds' vs') :
    Contents R F returns (es ++ es') (ds ++ ds') (vs ++ vs') where
  exprs := List.forall_mem_append.mpr ⟨h.exprs, h'.exprs⟩
  declarations := List.forall_mem_append.mpr ⟨h.declarations, h'.declarations⟩
  returned := List.forall_mem_append.mpr ⟨h.returned, h'.returned⟩

/-- One typed expression more. -/
theorem Contents.cons {e : Expr} {es vs : List Expr} {ds : List Declaration} {k : Nat}
    {Γ : StaticScopes} {ty : Ty} (h : Contents R F returns es ds vs) (hΓ : Γ.Offers F k)
    (he : ExprTyped R Γ e ty) : Contents R F returns (e :: es) ds vs :=
  { h with exprs := List.forall_mem_cons.mpr ⟨⟨k, Γ, ty, hΓ, he⟩, h.exprs⟩ }

/-- The initializer of a typed declaration is typed. -/
theorem DeclarationTyped.initializer {Γ Γ' : StaticScopes} {d : Declaration} {value : Expr}
    (h : DeclarationTyped R Γ d Γ') (hvalue : value ∈ d.initializer) :
    ∃ ty, ExprTyped R Γ value ty := by
  obtain ⟨hinitial, _, _⟩ := h
  generalize d.typeName = typeName at hinitial
  rw [Option.mem_def.mp hvalue] at hinitial
  cases hinitial with
  | annotated _ htyped _ => exact ⟨_, htyped⟩
  | inferred htyped => exact ⟨_, htyped⟩

mutual

theorem StatementTyped.contents : ∀ {s : Statement} {k : Nat} {Γ Γ' : StaticScopes},
    StatementTyped R returns Γ s Γ' → Γ.Offers F k →
    Contents R F returns s.exprs s.declarations s.returned
  | .expression _, _, _, _, .expression hvalue, hΓ => Contents.nil.cons hΓ hvalue
  | .declare d, k, Γ, Γ', .declare hd, hΓ => by
    refine ⟨?_, ?_, fun _ h => nomatch h⟩
    · intro e he
      obtain ⟨ty, htyped⟩ := hd.initializer (by simpa [Statement.exprs] using he)
      exact ⟨k, Γ, ty, hΓ, htyped⟩
    · simp only [Statement.declarations, List.forall_mem_singleton]
      exact ⟨Γ, Γ', hd⟩
  | .assign .., _, _, _, .assign _ htarget hvalue _, hΓ =>
    (Contents.nil.cons hΓ hvalue).cons hΓ htarget
  | .ifElse .., _, _, _, .ifElse hcondition _ hthen helse, hΓ =>
    ((hthen.contents hΓ.push).append (helse.contents hΓ.push)).cons hΓ hcondition
  -- The body stands in a scope of its own, with the variable of the loop.
  | .forIn .., _, _, _, .forIn hiterable _ hdefine hbody, hΓ =>
    (hbody.contents (hΓ.push.grows (.of_defineVariable hdefine))).cons hΓ hiterable
  | .whileDo .., _, _, _, .whileDo hcondition _ hbody, hΓ =>
    (hbody.contents hΓ.push).cons hΓ hcondition
  -- Only `RETURN` adds to the values that are returned.
  | .returns value, k, Γ, _, .returns hvalue haccepts, hΓ => by
    have hcontents : Contents R F returns [value] [] [] := Contents.nil.cons hΓ hvalue
    refine ⟨hcontents.exprs, (fun _ h => nomatch h), ?_⟩
    simp only [Statement.returned, List.forall_mem_singleton]
    exact ⟨Γ, _, hvalue, haccepts⟩

/-- Statements in a row hand their scopes on, and all of them offer the same functions. -/
theorem StatementsTyped.contents : ∀ {body : List Statement} {k : Nat} {Γ Γ' : StaticScopes},
    StatementsTyped R returns Γ body Γ' → Γ.Offers F k →
    Contents R F returns (Statement.listExprs body) (Statement.declarationsAll body)
      (Statement.returnedAll body)
  | [], _, _, _, _, _ => .nil
  | _ :: _, _, _, _, .cons hs hrest, hΓ =>
    (hs.contents hΓ).append (hrest.contents (hΓ.grows hs.grows))

end

end Statements

/-! ## Entries of programs -/

/-- Parameters are new names in the current scope. -/
theorem ParametersTyped.grows : ∀ {parameters : List Parameter} {types : List Ty}
    {Γ Γ' : StaticScopes}, ParametersTyped Γ parameters types Γ' → Grows Γ Γ'
  | [], _, _, _, .nil => .refl _
  | _ :: _, _, _, _, .cons hdefine hrest => (Grows.of_defineVariable hdefine).trans hrest.grows

section Programs

variable {r : Registry} {a : Analysis}

/-- A typed declaration is recorded as the table says. -/
theorem DeclarationTyped.declares {Γ Γ' : StaticScopes} {d : Declaration}
    (h : DeclarationTyped (a.rules r) Γ d Γ') : a.Declares r d := by
  obtain @⟨ty, hinitial, _, hnoted⟩ := h
  refine ⟨ty, hnoted, ?_⟩
  -- The rule that was used tells whether there is an annotation and an initializer.
  generalize d.typeName = typeName at hinitial
  generalize d.initializer = initializer at hinitial
  cases hinitial with
  | annotated hresolve htyped haccepts =>
    refine ⟨fun value hvalue => ?_, hresolve⟩
    cases hvalue
    exact ⟨_, htyped.noted, haccepts⟩
  | bare hresolve _ => exact ⟨(fun _ hvalue => nomatch hvalue), hresolve⟩
  | inferred htyped =>
    refine ⟨fun value hvalue => ?_, _, rfl, htyped.noted⟩
    cases hvalue
    exact ⟨ty, htyped.noted, Ty.accepts_self ty⟩

/-- Only natives are in scope before the methods. -/
theorem NativesTyped.offers : ∀ {natives : List Native} {Γ Γ' : StaticScopes},
    (∀ native ∈ natives, native ∈ r.functions) → NativesTyped Γ natives Γ' →
    Γ.Offers r.Provides 0 → Γ'.Offers r.Provides 0
  | [], _, _, _, .nil, hΓ => hΓ
  | native :: rest, Γ, Γ', hmem, .cons hdefine hrest, hΓ => by
    rw [List.forall_mem_cons] at hmem
    obtain ⟨_, rfl⟩ := defineFunction_eq_ok_iff.mp hdefine
    have hprovides : r.Provides (native.name, native.signature.arity)
        ⟨native.name, native.signature⟩ := ⟨native, hmem.1, rfl, rfl⟩
    exact hrest.offers hmem.2 (hΓ.redefineFunction (fun _ _ _ h => h) hprovides)

/-- The fields of a program are typed where only natives are in scope. -/
theorem FieldsTyped.contents {R : Rules} {F : FunctionKey → FunctionBinding → Prop} (returns : Ty) :
    ∀ {fields : List Declaration} {Γ Γ' : StaticScopes}, FieldsTyped R Γ fields Γ' →
    Γ.Offers F 0 → Γ'.Offers F 0 ∧
      Contents R F returns (fields.flatMap (·.initializer.toList)) fields []
  | [], _, _, .nil, hΓ => ⟨hΓ, .nil⟩
  | d :: rest, Γ, Γ', .cons hd hrest, hΓ => by
    obtain ⟨hΓ', hcontents⟩ := hrest.contents returns (hΓ.grows hd.grows)
    have hfirst : Contents R F returns (Statement.declare d).exprs [d] [] :=
      StatementTyped.contents (.declare hd) hΓ
    exact ⟨hΓ', hfirst.append hcontents⟩

/-- What a well-typed method has in its body.  There the method itself is known by what it
    declares. -/
theorem MethodTyped.contents {F F' : FunctionKey → FunctionBinding → Prop} {m : Method}
    {signature : Signature} {Γ Γ' : StaticScopes} (h : MethodTyped (a.rules r) Γ m signature Γ')
    (hΓ : Γ.Offers F 0) (hF : ∀ key binding, F key binding → F' key binding)
    (hown : ∀ parameters returns provisional,
      a.function? m.id = some ⟨m.name, ⟨parameters, returns⟩⟩ →
      r.Annotates .any m.returnTypeName provisional →
      F' m.key ⟨m.name, ⟨parameters, provisional⟩⟩) :
    a.Defines r m ∧ Contents (a.rules r) F' signature.returns (Statement.listExprs m.body)
      (Statement.declarationsAll m.body) (Statement.returnedAll m.body) := by
  obtain @⟨parameters, provisional, returns, Γ₁, Γ₂, Γ₃, hannotated, hprovisional, hreturns,
    hdefine, _, hparameters, hbody, hnoted⟩ := h
  obtain ⟨_, rfl⟩ := defineFunction_eq_ok_iff.mp hdefine
  -- The method is in scope in its own body, with its provisional signature.
  have hkey := hown parameters returns provisional hnoted hprovisional
  rw [Method.key, hannotated.length_eq] at hkey
  have hΓ₁ := hΓ.redefineFunction (fun key binding _ => hF key binding) hkey
  have hcontents := hbody.contents (hΓ₁.push.grows hparameters.grows)
  refine ⟨⟨parameters, returns, hnoted, hannotated, hreturns, ?_⟩, hcontents⟩
  intro value hvalue
  obtain ⟨_, ty, htyped, haccepts⟩ := hcontents.returned value hvalue
  exact ⟨ty, htyped.noted, haccepts⟩

/-- Behind a method the same variables are in scope, and one more function, as it is recorded. -/
theorem MethodTyped.inScope {base : FunctionKey → FunctionBinding → Prop} {above : List Method}
    {m : Method} {signature : Signature} {Γ Γ' : StaticScopes}
    (h : MethodTyped (a.rules r) Γ m signature Γ') (hΓ : Γ.Offers (InScope a base above) 0) :
    Γ'.Offers (InScope a base (above ++ [m])) 0 ∧
      ∀ name i, Γ'.found (·.vars.get? name) i = Γ.found (·.vars.get? name) i := by
  obtain @⟨parameters, provisional, returns, Γ₁, _, _, hannotated, _, _, hdefine, _, _, _,
    hnoted⟩ := h
  obtain ⟨_, rfl⟩ := defineFunction_eq_ok_iff.mp hdefine
  refine ⟨?_, fun name i => by rw [found_var_redefineFunction, found_var_redefineFunction]⟩
  have hnew : InScope a base (above ++ [m]) (m.name, parameters.length)
      ⟨m.name, ⟨parameters, returns⟩⟩ := by
    rw [← hannotated.length_eq]
    exact .method (by simp) hnoted
  -- What was in scope still is; the provisional signature is replaced.
  have hΓ₁ : (Γ.redefineFunction m.name parameters.length
      ⟨m.name, ⟨parameters, provisional⟩⟩).Offers
      (fun key binding => key ≠ (m.name, parameters.length) →
        InScope a base (above ++ [m]) key binding) 0 := by
    refine hΓ.redefineFunction ?_ fun hne => absurd rfl hne
    intro key binding _ hknown _
    cases hknown with
    | base hbase => exact .base hbase
    | method hmem hrecorded => exact .method (List.mem_append_left _ hmem) hrecorded
  exact hΓ₁.redefineFunction (fun _ _ hne hknown => hknown hne) hnew

/-- Each method of a program is typed behind those above it. -/
theorem MethodsTyped.split {base : FunctionKey → FunctionBinding → Prop} :
    ∀ {methods above : List Method} {Γ Γ' : StaticScopes}, MethodsTyped (a.rules r) Γ methods Γ' →
    Γ.Offers (InScope a base above) 0 → ∀ front m back, methods = front ++ m :: back →
    ∃ Γ₁ signature Γ₂, MethodTyped (a.rules r) Γ₁ m signature Γ₂ ∧
      Γ₁.Offers (InScope a base (above ++ front)) 0 ∧
      ∀ name i, Γ₁.found (·.vars.get? name) i = Γ.found (·.vars.get? name) i
  | [], _, _, _, _, _, front, m, back, hsplit => by simp at hsplit
  | first :: rest, above, Γ, Γ', .cons hm hrest, hΓ, front, m, back, hsplit => by
    -- A method is checked in the scopes that those above it have left.
    cases front with
    | nil =>
      obtain ⟨rfl, rfl⟩ := List.cons.inj hsplit
      rw [List.append_nil]
      exact ⟨Γ, _, _, hm, hΓ, fun _ _ => rfl⟩
    | cons first' front' =>
      obtain ⟨rfl, hsplit'⟩ := List.cons.inj hsplit
      obtain ⟨hΓ₁, hvars⟩ := hm.inScope hΓ
      obtain ⟨Γ₂, signature, Γ₃, hm', hΓ₂, hvars'⟩ := hrest.split hΓ₁ front' m back hsplit'
      rw [List.append_assoc] at hΓ₂
      exact ⟨Γ₂, signature, Γ₃, hm', hΓ₂, fun name i => (hvars' name i).trans (hvars name i)⟩

end Programs

/-! ## Nothing else is recorded -/

namespace Source

/-- The nodes of the expressions of a program. -/
def nodes (s : Source) : List Expr := s.exprs.flatMap Expr.nodes

/-- The numbers of expressions. -/
def expressionIds (s : Source) : List NodeId := s.nodes.map Expr.id

/-- The numbers of accesses and declarations. -/
def variableIds (s : Source) : List NodeId :=
  (s.nodes.filter Expr.isAccess).map Expr.id ++ s.declarations.map Declaration.id

/-- The numbers of calls and methods. -/
def functionIds (s : Source) : List NodeId :=
  (s.nodes.filter Expr.isCall).map Expr.id ++ s.methods.map Method.id

/-- The nodes of a program may be recorded at. -/
theorem permitted {s : Source} {n : Expr} (hn : n ∈ s.nodes) :
    n.Permitted (· ∈ s.expressionIds) (· ∈ s.variableIds) (· ∈ s.functionIds) where
  type := List.mem_map_of_mem hn
  binding := fun haccess =>
    List.mem_append_left _ (List.mem_map_of_mem (List.mem_filter.mpr ⟨hn, haccess⟩))
  function := fun hcall =>
    List.mem_append_left _ (List.mem_map_of_mem (List.mem_filter.mpr ⟨hn, hcall⟩))

end Source

/-- The table has types only for the nodes in `T`, variables only for those in `V` and functions
    only for those in `F`. -/
structure Analysis.Within (T V F : NodeId → Prop) (a : Analysis) : Prop where
  type : ∀ id, (a.type? id).isSome = true → T id
  binding : ∀ id, (a.binding? id).isSome = true → V id
  function : ∀ id, (a.function? id).isSome = true → F id

/-- A new key keeps what is said of all keys, if it is said of the new one. -/
private theorem Table.isSome_insert {κ α : Type} [DecidableEq κ] {t : Table κ α} {P : κ → Prop}
    {k : κ} (v : α) (ht : ∀ k', (t.get? k').isSome = true → P k') (hk : P k) :
    ∀ k', ((t.insert k v).get? k').isSome = true → P k' := by
  intro k' h
  rw [Table.get?_insert] at h
  by_cases heq : k' = k
  · rwa [heq]
  · rw [if_neg heq] at h
    exact ht k' h

/-- Staying within given ids is a footprint. -/
private theorem footprint_within (T V F : NodeId → Prop) :
    Footprint (fun c c' => c.analysis.Within T V F → c'.analysis.Within T V F) T V F where
  refl := fun _ h => h
  trans := fun h h' hc => h' (h hc)
  type := fun _ _ ty hid h => ⟨Table.isSome_insert ty h.type hid, h.binding, h.function⟩
  binding := fun _ _ b hid h => ⟨h.type, Table.isSome_insert b h.binding hid, h.function⟩
  function := fun _ _ f hid h => ⟨h.type, h.binding, Table.isSome_insert f h.function hid⟩

/-- Types are recorded for expressions, variables for accesses and declarations, functions for
    calls and methods. -/
theorem analyze_within {r : Registry} {s : Source} {a : Analysis} (h : analyze r s = .ok a) :
    a.Within (· ∈ s.expressionIds) (· ∈ s.variableIds) (· ∈ s.functionIds) := by
  unfold analyze at h
  cases hrun : Check.source r s ⟨.new, .empty, none⟩ with
  | error e c => rw [hrun] at h; exact nomatch h
  | ok _ c =>
    rw [hrun] at h
    cases h
    apply (Check.leaves_source (footprint_within _ _ _) ⟨fun _ _ h => h, fun _ _ h => h⟩
      ?_ ?_ ?_ _).of_ok hrun
    · constructor <;> exact fun _ h => nomatch h
    · exact fun e he n hn => Source.permitted (List.mem_flatMap.mpr ⟨e, he, hn⟩)
    · exact fun d hd => List.mem_append_right _ (List.mem_map_of_mem hd)
    · exact fun m hm => List.mem_append_right _ (List.mem_map_of_mem hm)

/-! ## The whole table -/

namespace Analysis

variable {r : Registry} {a : Analysis} {n : Expr}

/-- A consistent node has a type in the table. -/
private theorem Consistent.type_isSome (h : a.Consistent r n) : (a.type? n.id).isSome = true := by
  cases n <;> simp only [Consistent] at h <;> grind [Expr.id]

/-- A node that stands for a variable or a field has its binding there. -/
private theorem Consistent.binding_isSome (h : a.Consistent r n) (haccess : n.isAccess = true) :
    (a.binding? n.id).isSome = true := by
  cases n <;> simp only [Consistent] at h <;> grind [Expr.id, Expr.isAccess]

/-- A call has its function there. -/
private theorem Consistent.function_isSome (h : a.Consistent r n) (hcall : n.isCall = true) :
    (a.function? n.id).isSome = true := by
  cases n <;> simp only [Consistent] at h <;> grind [Expr.id, Expr.isCall]

/-- The functions that are recorded for calls by name are among `F`. -/
def Calls (a : Analysis) (F : FunctionKey → FunctionBinding → Prop) (e : Expr) : Prop :=
  ∀ id name items, .call id name items ∈ e.nodes →
    ∃ binding, a.function? id = some binding ∧ F (name, items.length) binding

end Analysis

/-- Typed contents agree with the table node by node. -/
theorem Contents.consistent {r : Registry} {a : Analysis}
    {F : FunctionKey → FunctionBinding → Prop} {returns : Ty} {es vs : List Expr}
    {ds : List Declaration} (h : Contents (a.rules r) F returns es ds vs) {e : Expr} (he : e ∈ es) :
    a.Calls F e ∧ ∀ n ∈ e.nodes, a.Consistent r n := by
  obtain ⟨k, Γ, ty, hΓ, htyped⟩ := h.exprs e he
  refine ⟨fun id name items hcall => ?_, fun n hn => ?_⟩
  · have ⟨_, .call hfunction _ hnoted _⟩ := htyped.of_mem_nodes _ hcall
    exact ⟨_, hnoted, hΓ.function hfunction⟩
  · obtain ⟨_, hnode⟩ := htyped.of_mem_nodes n hn
    exact hnode.consistent

/-- An accepted program without repeated numbers is well typed by the rules that go by its
    table. -/
theorem analyze_recorded {r : Registry} {s : Source} {a : Analysis} (h : analyze r s = .ok a)
    (hids : s.ids.Nodup) : SourceTyped (a.rules r) s := by
  have hsettled : (a.rules r).Settled s.ids a :=
    .inr ⟨hids, fun _ _ => ⟨fun _ h => h, fun _ h => h, fun _ h => h⟩⟩
  exact analyze_typed h hsettled fun _ _ _ _ _ _ _ => trivial

/-- What a program contains is recorded as the rules say, and calls mean what is in scope. -/
theorem SourceTyped.recorded {r : Registry} {s : Source} {a : Analysis}
    (h : SourceTyped (a.rules r) s) :
    (∀ d ∈ s.fields, ∀ e ∈ d.initializer, a.Calls r.Provides e) ∧
    (∀ above m below, s.methods = above ++ m :: below → ∀ e ∈ Statement.listExprs m.body,
      a.Calls (Callee r a above m) e) ∧
    (∀ n ∈ s.nodes, a.Consistent r n) ∧ (∀ d ∈ s.declarations, a.Declares r d) ∧
    ∀ m ∈ s.methods, a.Defines r m := by
  obtain ⟨hnatives, hfields, hmethods, _, _, _⟩ := h
  have hnew : Offers r.Provides 0 Scopes.new := ⟨located_new, fun _ _ h => nomatch h⟩
  obtain ⟨hΓ, hfieldContents⟩ := hfields.contents .nil
    (hnatives.offers (fun _ hmem => hmem) hnew)
  have hΓ₀ : Offers (InScope a r.Provides []) 0 _ := hΓ.imp fun _ _ hbase => .base hbase
  -- Every method with what stands above it: this gives both its own entry and its contents.
  have hsplit : ∀ above m below, s.methods = above ++ m :: below → a.Defines r m ∧ ∃ returns,
      Contents (a.rules r) (Callee r a above m) returns (Statement.listExprs m.body)
        (Statement.declarationsAll m.body) (Statement.returnedAll m.body) := by
    intro above m below hsplit
    obtain ⟨_, signature, _, hm, hΓ₁, _⟩ := hmethods.split hΓ₀ above m below hsplit
    obtain ⟨hdefines, hcontents⟩ : _ ∧ Contents (a.rules r) (Callee r a above m) _ _ _ _ :=
      hm.contents hΓ₁ (fun _ _ => .known) fun _ _ _ => .own
    exact ⟨hdefines, signature.returns, hcontents⟩
  refine ⟨?_, ?_, ?_, ?_, ?_⟩
  · intro d hd e he
    exact (hfieldContents.consistent
      (List.mem_flatMap.mpr ⟨d, hd, Option.mem_toList.mpr he⟩)).1
  · intro above m below hmethods e he
    obtain ⟨_, _, hcontents⟩ := hsplit above m below hmethods
    exact (hcontents.consistent he).1
  · intro n hn
    obtain ⟨e, he, hne⟩ := List.mem_flatMap.mp hn
    obtain he | he := List.mem_append.mp he
    · exact (hfieldContents.consistent he).2 n hne
    · obtain ⟨m, hm, he⟩ := List.mem_flatMap.mp he
      obtain ⟨above, below, hmethods⟩ := List.append_of_mem hm
      obtain ⟨_, _, hcontents⟩ := hsplit above m below hmethods
      exact (hcontents.consistent he).2 n hne
  · intro d hd
    obtain hd | hd := List.mem_append.mp hd
    · obtain ⟨_, _, htyped⟩ := hfieldContents.declarations d hd
      exact htyped.declares
    · obtain ⟨m, hm, hd⟩ := List.mem_flatMap.mp hd
      obtain ⟨above, below, hmethods⟩ := List.append_of_mem hm
      obtain ⟨_, _, hcontents⟩ := hsplit above m below hmethods
      obtain ⟨_, _, htyped⟩ := hcontents.declarations d hd
      exact htyped.declares
  · intro m hm
    obtain ⟨above, below, hmethods⟩ := List.append_of_mem hm
    exact (hsplit above m below hmethods).1

/-- The side table has a type for every expression, a variable for every access and declaration and
    a function for every call and method. -/
theorem SourceTyped.complete {r : Registry} {s : Source} {a : Analysis}
    (h : SourceTyped (a.rules r) s) :
    (∀ id ∈ s.expressionIds, (a.type? id).isSome = true) ∧
    (∀ id ∈ s.variableIds, (a.binding? id).isSome = true) ∧
    ∀ id ∈ s.functionIds, (a.function? id).isSome = true := by
  obtain ⟨_, _, hnodes, hdeclarations, hmethods⟩ := h.recorded
  -- One id after the other, the node, declaration or method that it belongs to is recorded.
  refine ⟨?_, ?_, ?_⟩
  · intro id hid
    obtain ⟨n, hn, rfl⟩ := List.mem_map.mp hid
    exact (hnodes n hn).type_isSome
  · intro id hid
    obtain hid | hid := List.mem_append.mp hid
    · obtain ⟨n, hn, rfl⟩ := List.mem_map.mp hid
      obtain ⟨hn, haccess⟩ := List.mem_filter.mp hn
      exact (hnodes n hn).binding_isSome haccess
    · obtain ⟨d, hd, rfl⟩ := List.mem_map.mp hid
      obtain ⟨ty, hbinding, _⟩ := hdeclarations d hd
      rw [hbinding]
      rfl
  · intro id hid
    obtain hid | hid := List.mem_append.mp hid
    · obtain ⟨n, hn, rfl⟩ := List.mem_map.mp hid
      obtain ⟨hn, hcall⟩ := List.mem_filter.mp hn
      exact (hnodes n hn).function_isSome hcall
    · obtain ⟨m, hm, rfl⟩ := List.mem_map.mp hid
      obtain ⟨_, _, hfunction, _⟩ := hmethods m hm
      rw [hfunction]
      rfl

/-- The side table of a parsed program that the analysis accepts has types for exactly the
    expressions, variables for exactly the accesses and declarations, and functions for exactly
    the calls and methods.  Each entry is the one that the typing rules give for the entries next
    to it, and a call by name means a native, a method above or the method around it. -/
theorem analyze_table {tokens : List Token} {source : Source} (hparse : parse tokens = .ok source)
    {r : Registry} {a : Analysis} (h : analyze r source = .ok a) :
    (∀ id, ((a.type? id).isSome = true ↔ id ∈ source.expressionIds) ∧
      ((a.binding? id).isSome = true ↔ id ∈ source.variableIds) ∧
      ((a.function? id).isSome = true ↔ id ∈ source.functionIds)) ∧
    (∀ n ∈ source.nodes, a.Consistent r n) ∧ (∀ d ∈ source.declarations, a.Declares r d) ∧
    (∀ m ∈ source.methods, a.Defines r m) ∧
    (∀ d ∈ source.fields, ∀ e ∈ d.initializer, a.Calls r.Provides e) ∧
    ∀ above m below, source.methods = above ++ m :: below → ∀ e ∈ Statement.listExprs m.body,
      a.Calls (Callee r a above m) e := by
  have htyped := analyze_recorded h (nodup_ids_parse hparse)
  obtain ⟨hfields, hmethods, hnodes, hdeclares, hdefines⟩ := htyped.recorded
  obtain ⟨htypes, hvariables, hfunctions⟩ := htyped.complete
  -- One direction is that all is recorded, the other that nothing else is.
  have hwithin := analyze_within h
  refine ⟨fun id => ⟨⟨hwithin.type id, htypes id⟩, ⟨hwithin.binding id, hvariables id⟩,
    ⟨hwithin.function id, hfunctions id⟩⟩, hnodes, hdeclares, hdefines, hfields, hmethods⟩

/-- A method that calls itself above its first `RETURN`. -/
def countdown : String :=
  "LET k = 2; DEF f(b: Boolean) DO IF b DO f(FALSE); END RETURN (k + 1) * 2; END
  DEF main() DO RETURN f(TRUE); END"

/-- The call within the method is of type `Any`, and the method is recorded to return integers. -/
theorem countdown_table :
    ∃ tokens source a, parse tokens = .ok source ∧ analyze .withRange source = .ok a ∧
      (some .any ∈ source.nodes.map fun n => a.type? n.id) ∧
      (source.methods.map fun m => (a.function? m.id).map (·.signature.returns)) =
        [some .integer, some .integer] ∧
      (∀ n ∈ source.nodes, a.Consistent .withRange n) ∧
      ∀ m ∈ source.methods, a.Defines .withRange m := by
  -- What the entries are is computed; that they are consistent is the general result.
  have hcompute : (check .withRange countdown).toOption.any fun p =>
      decide ((some .any ∈ p.source.nodes.map fun n => p.analysis.type? n.id) ∧
        (p.source.methods.map fun m => (p.analysis.function? m.id).map (·.signature.returns)) =
          [some .integer, some .integer]) := by decide +kernel
  obtain ⟨p, hp, hentries⟩ := exists_of_check hcompute
  obtain ⟨hany, hreturns⟩ := of_decide_eq_true hentries
  obtain ⟨tokens, hparse, hanalyze⟩ := of_check_eq_ok hp
  obtain ⟨_, hnodes, _, hdefines, _⟩ := analyze_table hparse hanalyze
  exact ⟨tokens, p.source, p.analysis, hparse, hanalyze, hany, hreturns, hnodes, hdefines⟩

end LetLang
