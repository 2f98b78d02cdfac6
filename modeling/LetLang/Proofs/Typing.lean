import LetLang.Analysis.Checker
import Mathlib.Data.List.Forall2

/-! # Well-typed programs

The rules by which a program is well typed, as relations between the scopes of the analysis
and the tree.  They say what the checker finds out without saying how: the side table is not
built up but only consulted, and the type that a method returns is given from the start.

* `ExprTyped R Γ e ty`             an expression in the scopes `Γ`
* `DeclarationTyped R Γ d Γ'`      a declaration, which leads to the scopes `Γ'`
* `StatementTyped R returns Γ s Γ'`   a statement of a method that returns `returns`
* `MethodTyped R Γ m signature Γ'`    a method
* `SourceTyped R s`                a whole program

`R : Rules` has what they refer to besides the scopes. -/

namespace LetLang

/-- The scopes of the analysis: types in the place of values. -/
abbrev StaticScopes := Scopes VariableBinding FunctionBinding

/-- What the rules refer to besides the scopes. -/
structure Rules where
  registry : Registry
  /-- Which types are noted for which expressions. -/
  type : NodeId → Ty → Prop
  /-- Which variables are noted for which accesses and declarations. -/
  binding : NodeId → VariableBinding → Prop
  /-- Which functions are noted for which calls and methods. -/
  function : NodeId → FunctionBinding → Prop
  /-- The types whose variables may be declared without an initial value. -/
  bare : Ty → Prop

/-! ## Expressions -/

mutual

/-- The expression has the type in the given scopes. -/
inductive ExprTyped (R : Rules) (Γ : StaticScopes) : Expr → Ty → Prop where
  | literal {id value ty} :
    value.type = .ok ty → R.type id ty → ExprTyped R Γ (.literal id value) ty
  | group {id inner ty} :
    inner.isBinary → ExprTyped R Γ inner ty → R.type id ty → ExprTyped R Γ (.group id inner) ty
  | binary {id operator left right leftType rightType ty} :
    ExprTyped R Γ left leftType → ExprTyped R Γ right rightType →
    operator.type leftType rightType = .ok ty → R.type id ty →
    ExprTyped R Γ (.binary id operator left right) ty
  | var {id name binding} :
    Γ.lookup? name = some binding → R.binding id binding → R.type id binding.ty →
    ExprTyped R Γ (.var id name) binding.ty
  | field {id receiver name receiverType ty} :
    ExprTyped R Γ receiver receiverType →
    receiverType.field? R.registry.objects name = some ty →
    R.binding id ⟨name, ty⟩ → R.type id ty →
    ExprTyped R Γ (.field id receiver name) ty
  | call {id name items binding} :
    Γ.function? name items.length = some binding →
    ArgumentsTyped R Γ items binding.signature.parameters →
    R.function id binding → R.type id binding.signature.returns →
    ExprTyped R Γ (.call id name items) binding.signature.returns
  | invoke {id receiver name items receiverType native} :
    ExprTyped R Γ receiver receiverType →
    receiverType.method? R.registry.objects name (items.length + 1) = some native →
    ArgumentsTyped R Γ items native.signature.parameters.tail →
    R.function id ⟨name, native.signature⟩ → R.type id native.signature.returns →
    ExprTyped R Γ (.invoke id receiver name items) native.signature.returns

/-- There is one argument for each parameter, and each fits. -/
inductive ArgumentsTyped (R : Rules) (Γ : StaticScopes) : List Expr → List Ty → Prop where
  | nil : ArgumentsTyped R Γ [] []
  | cons {item items parameter parameters actual} :
    ExprTyped R Γ item actual → parameter.accepts actual →
    ArgumentsTyped R Γ items parameters →
    ArgumentsTyped R Γ (item :: items) (parameter :: parameters)

end

/-- The type of an expression is the one that is noted for it. -/
theorem ExprTyped.noted {R : Rules} {Γ : StaticScopes} {e : Expr} {ty : Ty}
    (h : ExprTyped R Γ e ty) : R.type e.id ty := by
  cases h <;> assumption

/-! ## Statements -/

/-- The initial value of a declaration makes a variable of the given type. -/
inductive InitialTyped (R : Rules) (Γ : StaticScopes) : Option String → Option Expr → Ty → Prop where
  | annotated {typeName value declared actual} :
    R.registry.resolve? typeName = some declared → ExprTyped R Γ value actual →
    declared.accepts actual → InitialTyped R Γ (some typeName) (some value) declared
  | bare {typeName declared} :
    R.registry.resolve? typeName = some declared → R.bare declared →
    InitialTyped R Γ (some typeName) none declared
  | inferred {value actual} :
    ExprTyped R Γ value actual → InitialTyped R Γ none (some value) actual

/-- A declaration leads from the scopes `Γ` to `Γ'`. -/
inductive DeclarationTyped (R : Rules) (Γ : StaticScopes) (d : Declaration) (Γ' : StaticScopes) :
    Prop where
  | intro {ty} :
    InitialTyped R Γ d.typeName d.initializer ty →
    Γ.defineVariable d.name ⟨d.name, ty⟩ = .ok Γ' → R.binding d.id ⟨d.name, ty⟩ →
    DeclarationTyped R Γ d Γ'

mutual

/-- A statement of a method that returns `returns` leads from the scopes `Γ` to `Γ'`. -/
inductive StatementTyped (R : Rules) (returns : Ty) :
    StaticScopes → Statement → StaticScopes → Prop where
  | expression {Γ value ty} :
    ExprTyped R Γ value ty → StatementTyped R returns Γ (.expression value) Γ
  | declare {Γ d Γ'} :
    DeclarationTyped R Γ d Γ' → StatementTyped R returns Γ (.declare d) Γ'
  | assign {Γ target value targetType valueType} :
    target.isAccess → ExprTyped R Γ target targetType → ExprTyped R Γ value valueType →
    targetType.accepts valueType → StatementTyped R returns Γ (.assign target value) Γ
  | ifElse {Γ condition thenBody elseBody ty Γ₁ Γ₂} :
    ExprTyped R Γ condition ty → Ty.boolean.accepts ty →
    StatementsTyped R returns Γ.push thenBody Γ₁ →
    StatementsTyped R returns Γ.push elseBody Γ₂ →
    StatementTyped R returns Γ (.ifElse condition thenBody elseBody) Γ
  | forIn {Γ name iterable body ty Γ₁ Γ₂} :
    ExprTyped R Γ iterable ty → Ty.integerIterable.accepts ty →
    Γ.push.defineVariable name ⟨name, .integer⟩ = .ok Γ₁ →
    StatementsTyped R returns Γ₁ body Γ₂ →
    StatementTyped R returns Γ (.forIn name iterable body) Γ
  | whileDo {Γ condition body ty Γ₁} :
    ExprTyped R Γ condition ty → Ty.boolean.accepts ty →
    StatementsTyped R returns Γ.push body Γ₁ →
    StatementTyped R returns Γ (.whileDo condition body) Γ
  | returns {Γ value ty} :
    ExprTyped R Γ value ty → returns.accepts ty →
    StatementTyped R returns Γ (.returns value) Γ

/-- Statements in order lead from the scopes `Γ` to `Γ'`. -/
inductive StatementsTyped (R : Rules) (returns : Ty) :
    StaticScopes → List Statement → StaticScopes → Prop where
  | nil {Γ} : StatementsTyped R returns Γ [] Γ
  | cons {Γ s rest Γ₁ Γ'} :
    StatementTyped R returns Γ s Γ₁ → StatementsTyped R returns Γ₁ rest Γ' →
    StatementsTyped R returns Γ (s :: rest) Γ'

end

mutual

/-- The declarations in a statement, those of inner blocks included. -/
def Statement.declarations : Statement → List Declaration
  | .declare d => [d]
  | .ifElse _ thenBody elseBody =>
    Statement.declarationsAll thenBody ++ Statement.declarationsAll elseBody
  | .forIn _ _ body | .whileDo _ body => Statement.declarationsAll body
  | .expression _ | .assign .. | .returns _ => []

/-- The declarations in statements, those of inner blocks included. -/
def Statement.declarationsAll : List Statement → List Declaration
  | [] => []
  | s :: rest => s.declarations ++ Statement.declarationsAll rest

end

mutual

/-- The values that a statement can return, in the order of the text. -/
def Statement.returned : Statement → List Expr
  | .returns value => [value]
  | .ifElse _ thenBody elseBody =>
    Statement.returnedAll thenBody ++ Statement.returnedAll elseBody
  | .forIn _ _ body | .whileDo _ body => Statement.returnedAll body
  | .expression _ | .declare _ | .assign .. => []

/-- The values that statements can return, in the order of the text. -/
def Statement.returnedAll : List Statement → List Expr
  | [] => []
  | s :: rest => s.returned ++ Statement.returnedAll rest

end

/-! ## Programs -/

/-- The declarations of a program, global and local. -/
def Source.declarations (s : Source) : List Declaration :=
  s.fields ++ s.methods.flatMap fun m => Statement.declarationsAll m.body

/-- A declaration has an initial value, or needs none. -/
def Rules.Starts (R : Rules) (d : Declaration) : Prop :=
  ∀ typeName ty, d.initializer = none → d.typeName = some typeName →
    R.registry.resolve? typeName = some ty → R.bare ty

/-- An annotation names the type; without one it is `otherwise`. -/
def Registry.Annotates (r : Registry) (otherwise : Ty) (typeName : Option String) (ty : Ty) : Prop :=
  match typeName with
  | some name => r.resolve? name = some ty
  | none => ty = otherwise

/-- A method returns what it declares, else what its first `RETURN` has, else nothing. -/
def Rules.Returns (R : Rules) (m : Method) (returns : Ty) : Prop :=
  match m.returnTypeName, Statement.returnedAll m.body with
  | some name, _ => R.registry.resolve? name = some returns
  | none, value :: _ => R.type value.id returns
  | none, [] => returns = .nil

/-- Parameters of the given types lead from the scopes `Γ` to `Γ'`. -/
inductive ParametersTyped : StaticScopes → List Parameter → List Ty → StaticScopes → Prop where
  | nil {Γ} : ParametersTyped Γ [] [] Γ
  | cons {Γ p ps ty types Γ₁ Γ'} :
    Γ.defineVariable p.name ⟨p.name, ty⟩ = .ok Γ₁ → ParametersTyped Γ₁ ps types Γ' →
    ParametersTyped Γ (p :: ps) (ty :: types) Γ'

/-- A method of the given signature leads from the scopes `Γ` to `Γ'`.  Its own body knows it
    by a signature that may promise less. -/
inductive MethodTyped (R : Rules) (Γ : StaticScopes) (m : Method) :
    Signature → StaticScopes → Prop where
  | intro {parameters provisional returns Γ₁ Γ₂ Γ₃} :
    List.Forall₂ (fun p => R.registry.Annotates .any p.typeName) m.parameters parameters →
    R.registry.Annotates .any m.returnTypeName provisional →
    R.Returns m returns →
    Γ.defineFunction m.name parameters.length ⟨m.name, ⟨parameters, provisional⟩⟩ = .ok Γ₁ →
    provisional.accepts returns →
    ParametersTyped Γ₁.push m.parameters parameters Γ₂ →
    StatementsTyped R returns Γ₂ m.body Γ₃ →
    R.function m.id ⟨m.name, ⟨parameters, returns⟩⟩ →
    MethodTyped R Γ m ⟨parameters, returns⟩
      (Γ₁.redefineFunction m.name parameters.length ⟨m.name, ⟨parameters, returns⟩⟩)

/-- Global declarations in order lead from the scopes `Γ` to `Γ'`. -/
inductive FieldsTyped (R : Rules) : StaticScopes → List Declaration → StaticScopes → Prop where
  | nil {Γ} : FieldsTyped R Γ [] Γ
  | cons {Γ d rest Γ₁ Γ'} :
    DeclarationTyped R Γ d Γ₁ → FieldsTyped R Γ₁ rest Γ' → FieldsTyped R Γ (d :: rest) Γ'

/-- Methods in order lead from the scopes `Γ` to `Γ'`. -/
inductive MethodsTyped (R : Rules) : StaticScopes → List Method → StaticScopes → Prop where
  | nil {Γ} : MethodsTyped R Γ [] Γ
  | cons {Γ m rest signature Γ₁ Γ'} :
    MethodTyped R Γ m signature Γ₁ → MethodsTyped R Γ₁ rest Γ' →
    MethodsTyped R Γ (m :: rest) Γ'

/-- Native functions in order lead from the scopes `Γ` to `Γ'`. -/
inductive NativesTyped : StaticScopes → List Native → StaticScopes → Prop where
  | nil {Γ} : NativesTyped Γ [] Γ
  | cons {Γ native rest Γ₁ Γ'} :
    Γ.defineFunction native.name native.signature.arity ⟨native.name, native.signature⟩ = .ok Γ₁ →
    NativesTyped Γ₁ rest Γ' → NativesTyped Γ (native :: rest) Γ'

/-- A whole program, with a `main` that gives an integer. -/
inductive SourceTyped (R : Rules) (s : Source) : Prop where
  | intro {Γ₀ Γ₁ Γ₂ binding} :
    NativesTyped Scopes.new R.registry.functions Γ₀ →
    FieldsTyped R Γ₀ s.fields Γ₁ →
    MethodsTyped R Γ₁ s.methods Γ₂ →
    Γ₂.function? "main" 0 = some binding → binding.signature.parameters = [] →
    Ty.integer.accepts binding.signature.returns →
    SourceTyped R s

end LetLang
