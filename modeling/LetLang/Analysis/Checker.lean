import LetLang.Analysis

/-! # Checking a program

One pass over the tree resolves names, types every expression and fills the side table.
Globals are declared first, in order, and then the methods.  A method is known from its
own body on: it may call itself and the methods above it, but none below.

The type that a method returns is the one it declares, else the type of its first
`RETURN`, else `Nil`.  Before that is known, a call of the method by itself has type
`Any`. -/

namespace LetLang

/-- Where the pass stands. -/
structure Checker where
  scopes : Scopes VariableBinding FunctionBinding
  analysis : Analysis
  /-- The type that the method at hand has to return, as far as it is known. -/
  expected : Option Ty

/-- A step of the pass. -/
abbrev Check := EStateM SemanticError Checker

/-! ## Rules on types -/

/-- Demand that a value of type `actual` may stand where `target` is due. -/
def requireAssignable (target actual : Ty) : Except SemanticError Unit :=
  if target.accepts actual then .ok () else .error (.notAssignable target actual)

/-- Whether a number fits in 32 bits with a sign. -/
def fitsInt32 (n : Int) : Bool := -2147483648 ≤ n && n ≤ 2147483647

/-- The type of a literal.  Numbers have to fit a 32-bit integer and a 64-bit float. -/
def Literal.type : Literal → Except SemanticError Ty
  | nil => .ok .nil
  | boolean _ => .ok .boolean
  | character _ => .ok .character
  | string _ => .ok .string
  | integer n => if fitsInt32 n then .ok .integer else .error (.integerOutOfRange n)
  | decimal d => if d.fitsDouble then .ok .decimal else .error (.decimalOutOfRange d)

/-- The type of an arithmetic operation: both operands are integers or both are
    decimals. -/
def arithmeticType (operator : Operator) : Ty → Ty → Except SemanticError Ty
  | .integer, .integer => .ok .integer
  | .decimal, .decimal => .ok .decimal
  | left, right => .error (.invalidOperands operator left right)

/-- The type of a binary expression.  Logical operators and comparisons combine
    Booleans; `+` makes a string as soon as one operand is a string. -/
def Operator.type (operator : Operator) (left right : Ty) : Except SemanticError Ty :=
  match operator.level with
  | .logical | .comparison => do
    requireAssignable .boolean left
    requireAssignable .boolean right
    return .boolean
  | .additive =>
    if operator = .plus ∧ (left.same .string ∨ right.same .string) then .ok .string
    else arithmeticType operator left right
  | .multiplicative => arithmeticType operator left right

namespace Check

/-- A result that may be an error. -/
def ofExcept {α : Type} : Except SemanticError α → Check α
  | .ok a => pure a
  | .error e => throw e

/-- Demand a condition on the shape of the program. -/
def ensure (condition : Bool) (e : SemanticError) : Check Unit :=
  if condition then pure () else throw e

/-- Demand that a value of type `actual` may stand where `target` is due. -/
def require (target actual : Ty) : Check Unit := ofExcept (requireAssignable target actual)

/-- Change the scopes, unless a name is defined twice. -/
def changeScopes
    (f : Scopes VariableBinding FunctionBinding →
      Except ScopeError (Scopes VariableBinding FunctionBinding)) : Check Unit := fun s =>
  match f s.scopes with
  | .ok scopes => .ok () { s with scopes := scopes }
  | .error e => .error (.scope e) s

/-- Define a variable in the current scope. -/
def defineVariable (name : String) (ty : Ty) : Check Unit :=
  changeScopes (·.defineVariable name ⟨name, ty⟩)

/-- Define a function in the current scope. -/
def defineFunction (name : String) (signature : Signature) : Check Unit :=
  changeScopes (·.defineFunction name signature.arity ⟨name, signature⟩)

/-- Run a step in a block of its own. -/
def inBlock (body : Check Unit) : Check Unit := do
  modify fun s => { s with scopes := s.scopes.push }
  body
  modify fun s => { s with scopes := s.scopes.pop }

/-- Record the type of an expression. -/
def recordType (id : NodeId) (ty : Ty) : Check Ty := do
  modify fun s => { s with analysis.types := s.analysis.types.insert id ty }
  return ty

/-- Record what an access or a declaration stands for. -/
def recordVariable (id : NodeId) (binding : VariableBinding) : Check Unit :=
  modify fun s => { s with analysis.vars := s.analysis.vars.insert id binding }

/-- Record what a call or a method stands for. -/
def recordFunction (id : NodeId) (binding : FunctionBinding) : Check Unit :=
  modify fun s => { s with analysis.functions := s.analysis.functions.insert id binding }

/-- The type that an annotation names, if there is one. -/
def resolve (r : Registry) : Option String → Check (Option Ty)
  | none => pure none
  | some name =>
    match r.resolve? name with
    | some ty => pure (some ty)
    | none => throw (.unknownType name)

/-! ## Expressions -/

mutual

/-- Type an expression, and record its type. -/
def expression (r : Registry) : Expr → Check Ty
  | .literal id value => do
    let ty ← ofExcept value.type
    recordType id ty
  | .group id inner => do
    ensure inner.isBinary .groupNotBinary
    let ty ← expression r inner
    recordType id ty
  | .binary id operator left right => do
    let leftType ← expression r left
    let rightType ← expression r right
    let ty ← ofExcept (operator.type leftType rightType)
    recordType id ty
  | .var id name => do
    match (← get).scopes.lookup? name with
    | none => throw (.undefinedVariable name)
    | some binding =>
      recordVariable id binding
      recordType id binding.ty
  | .field id receiver name => do
    let receiverType ← expression r receiver
    match receiverType.field? r.objects name with
    | none => throw (.unknownField receiverType name)
    | some ty =>
      recordVariable id ⟨name, ty⟩
      recordType id ty
  | .call id name items => do
    match (← get).scopes.function? name items.length with
    | none => throw (.undefinedFunction name items.length)
    | some binding =>
      arguments r items binding.signature.parameters
      recordFunction id binding
      recordType id binding.signature.returns
  | .invoke id receiver name items => do
    let receiverType ← expression r receiver
    -- The receiver takes the first place among the parameters.
    let arity := items.length + 1
    match receiverType.method? r.objects name arity with
    | none => throw (.unknownMethod receiverType name arity)
    | some native =>
      arguments r items native.signature.parameters.tail
      recordFunction id ⟨name, native.signature⟩
      recordType id native.signature.returns

/-- Type arguments and check each against its parameter, from the left. -/
def arguments (r : Registry) : List Expr → List Ty → Check Unit
  | item :: items, parameter :: parameters => do
    let actual ← expression r item
    require parameter actual
    arguments r items parameters
  | _, _ => pure ()

end

/-! ## Statements -/

/-- The type of a variable with the given annotation and initial value: the annotation
    if there is one, which then has to accept the value. -/
def declaredType (name : String) : Option Ty → Option Ty → Except SemanticError Ty
  | some declared, some actual => do
    requireAssignable declared actual
    return declared
  | some declared, none => .ok declared
  | none, some actual => .ok actual
  | none, none => .error (.untypedDeclaration name)

/-- Type an initial value, if there is one. -/
def initializer (r : Registry) : Option Expr → Check (Option Ty)
  | none => pure none
  | some value => some <$> expression r value

/-- Check a declaration, global or local, and define its variable. -/
def declaration (r : Registry) (d : Declaration) : Check Unit := do
  let declared ← resolve r d.typeName
  let actual ← initializer r d.initializer
  let ty ← ofExcept (declaredType d.name declared actual)
  defineVariable d.name ty
  recordVariable d.id ⟨d.name, ty⟩

/-- Check a returned type against what the method has to return.  The first `RETURN` of
    a method that declares nothing settles that. -/
def returned (actual : Ty) : Check Unit := do
  match (← get).expected with
  | some expected => require expected actual
  | none => modify fun s => { s with expected := some actual }

mutual

/-- Check a statement. -/
def statement (r : Registry) : Statement → Check Unit
  | .expression value => do
    ensure value.isCall .statementNotCall
    discard (expression r value)
  | .declare d => declaration r d
  | .assign target value => do
    ensure target.isAccess .invalidTarget
    let targetType ← expression r target
    let valueType ← expression r value
    require targetType valueType
  | .ifElse condition thenBody elseBody => do
    require .boolean (← expression r condition)
    ensure (!thenBody.isEmpty) (.emptyBody "IF")
    inBlock (statements r thenBody)
    inBlock (statements r elseBody)
  | .forIn name iterable body => do
    require .integerIterable (← expression r iterable)
    ensure (!body.isEmpty) (.emptyBody "FOR")
    inBlock do
      defineVariable name .integer
      statements r body
  | .whileDo condition body => do
    require .boolean (← expression r condition)
    ensure (!body.isEmpty) (.emptyBody "WHILE")
    inBlock (statements r body)
  | .returns value => do
    returned (← expression r value)

/-- Check statements in order. -/
def statements (r : Registry) : List Statement → Check Unit
  | [] => pure ()
  | s :: rest => do
    statement r s
    statements r rest

end

/-! ## Programs -/

/-- The types of parameters; one without an annotation takes anything. -/
def parameterTypes (r : Registry) : List Parameter → Check (List Ty)
  | [] => pure []
  | p :: rest => do
    let ty ← resolve r p.typeName
    let types ← parameterTypes r rest
    return ty.getD .any :: types

/-- Define the parameters of a method in the current scope. -/
def defineParameters : List Parameter → List Ty → Check Unit
  | p :: ps, ty :: types => do
    defineVariable p.name ty
    defineParameters ps types
  | _, _ => pure ()

/-- Check a method, and define it. -/
def method (r : Registry) (m : Method) : Check Unit := do
  let parameters ← parameterTypes r m.parameters
  let declared ← resolve r m.returnTypeName
  defineFunction m.name ⟨parameters, declared.getD .any⟩
  modify fun s => { s with expected := declared }
  inBlock do
    defineParameters m.parameters parameters
    statements r m.body
  let returns := (← get).expected.getD .nil
  let binding : FunctionBinding := ⟨m.name, ⟨parameters, returns⟩⟩
  modify fun s =>
    { s with scopes := s.scopes.redefineFunction m.name parameters.length binding }
  recordFunction m.id binding

/-- Define the native functions. -/
def natives : List Native → Check Unit
  | [] => pure ()
  | native :: rest => do
    defineFunction native.name native.signature
    natives rest

/-- Demand a `main` without parameters that returns an integer. -/
def requireMain : Check Unit := do
  match (← get).scopes.function? "main" 0 with
  | none => throw .missingMain
  | some binding => require .integer binding.signature.returns

/-- Check a whole program. -/
def source (r : Registry) (s : Source) : Check Unit := do
  natives r.functions
  s.fields.forM (declaration r)
  s.methods.forM (method r)
  requireMain

end Check

/-- The side table of a program, or why it is rejected. -/
def analyze (r : Registry) (source : Source) : Except SemanticError Analysis :=
  match Check.source r source ⟨.new, .empty, none⟩ with
  | .ok _ s => .ok s.analysis
  | .error e _ => .error e

end LetLang
