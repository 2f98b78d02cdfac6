import LetLang.Proofs.Renaming
import LetLang.Proofs.SideTable

/-! # The analysis of a renamed program

The checker goes through a program and through the program with other names for its variables in
step: the scopes are the renamed ones at any time, the same types and functions are recorded, and
the two programs are accepted together or rejected for the same reason.

The names in the side table need some care.  What is recorded for an access to a variable or for
a declaration is renamed, and what is recorded for a field of an object is not.  So the relation
between the two tables is told which numbers belong to the one kind and which to the other.

* `Analysis.RenamedBy`   the two side tables
* `Check.InStep`         two steps of the checker that do the same up to names
* `analyze_rename`       the result for whole programs
-/

namespace LetLang

open Scopes

/-! ## What is renamed -/

/-- The binding of a variable with its name changed. -/
def VariableBinding.rename (f : String → String) (b : VariableBinding) : VariableBinding :=
  { b with name := f b.name }

/-- The name in an error changes if it is the name of a variable. -/
def SemanticError.rename (f : String → String) : SemanticError → SemanticError
  | undefinedVariable name => .undefinedVariable (f name)
  | untypedDeclaration name => .untypedDeclaration (f name)
  | scope error => .scope (error.rename f)
  | e => e

/-- Whether the expression is an access to a variable. -/
def Expr.isVariable : Expr → Bool
  | var .. => true
  | _ => false

/-- Whether the expression is a field of an object. -/
def Expr.isField : Expr → Bool
  | field .. => true
  | _ => false

/-- The numbers of accesses to variables and of declarations. -/
def Source.namingIds (s : Source) : List NodeId :=
  (s.nodes.filter Expr.isVariable).map Expr.id ++ s.declarations.map Declaration.id

/-- The numbers of accesses to fields of objects. -/
def Source.fieldIds (s : Source) : List NodeId := (s.nodes.filter Expr.isField).map Expr.id

/-- The node is counted among the variables in `V` or the fields in `W`, if it is one. -/
structure Expr.Sorted (V W : NodeId → Prop) (e : Expr) : Prop where
  named : e.isVariable = true → V e.id
  field : e.isField = true → W e.id

/-- The nodes of a program name a variable or a field, but not both. -/
private theorem Source.sorted {s : Source} {n : Expr} (hn : n ∈ s.nodes) :
    n.Sorted (· ∈ s.namingIds) (· ∈ s.fieldIds) where
  named := fun h =>
    List.mem_append_left _ (List.mem_map_of_mem (List.mem_filter.mpr ⟨hn, h⟩))
  field := fun h => List.mem_map_of_mem (List.mem_filter.mpr ⟨hn, h⟩)

/-- The side tables have the same types and functions.  A variable is renamed if it was recorded
    for a node in `V`, and is the same if it was recorded for a node in `W`. -/
structure Analysis.RenamedBy (f : String → String) (V W : NodeId → Prop) (a a' : Analysis) :
    Prop where
  types_eq : a'.types = a.types
  functions_eq : a'.functions = a.functions
  binding : ∀ id,
    (V id ∧ a'.binding? id = (a.binding? id).map (VariableBinding.rename f)) ∨
    (W id ∧ a'.binding? id = a.binding? id) ∨
    (a'.binding? id = none ∧ a.binding? id = none)

/-- The checker stands at the same point of the renamed program. -/
structure Checker.RenamedBy (f : String → String) (V W : NodeId → Prop) (c c' : Checker) :
    Prop where
  scopes_eq : c'.scopes = c.scopes.rename f (VariableBinding.rename f) id
  analysis : c.analysis.RenamedBy f V W c'.analysis
  expected_eq : c'.expected = c.expected

namespace Checker.RenamedBy

variable {f : String → String} {V W : NodeId → Prop} {c c' : Checker}

/-- Types carry no names. -/
theorem recordType (h : c.RenamedBy f V W c') (id : NodeId) (ty : Ty) :
    RenamedBy f V W { c with analysis.types := c.analysis.types.insert id ty }
      { c' with analysis.types := c'.analysis.types.insert id ty } :=
  ⟨h.scopes_eq, ⟨congrArg (·.insert id ty) h.analysis.types_eq, h.analysis.functions_eq,
    h.analysis.binding⟩, h.expected_eq⟩

/-- Functions are not renamed. -/
theorem recordFunction (h : c.RenamedBy f V W c') (id : NodeId) (b : FunctionBinding) :
    RenamedBy f V W { c with analysis.functions := c.analysis.functions.insert id b }
      { c' with analysis.functions := c'.analysis.functions.insert id b } :=
  ⟨h.scopes_eq, ⟨h.analysis.types_eq, congrArg (·.insert id b) h.analysis.functions_eq,
    h.analysis.binding⟩, h.expected_eq⟩

/-- What is recorded for one node may be renamed or not, as its kind demands. -/
private theorem record (h : c.RenamedBy f V W c') {id : NodeId} {b b' : VariableBinding}
    (hb : (V id ∧ b' = b.rename f) ∨ (W id ∧ b' = b)) :
    RenamedBy f V W { c with analysis.vars := c.analysis.vars.insert id b }
      { c' with analysis.vars := c'.analysis.vars.insert id b' } := by
  refine ⟨h.scopes_eq, ⟨h.analysis.types_eq, h.analysis.functions_eq, fun id' => ?_⟩,
    h.expected_eq⟩
  simp only [Analysis.binding?, Table.get?_insert]
  -- Only the entry of this id has changed.
  by_cases hid : id' = id
  · subst hid
    rw [if_pos rfl, if_pos rfl]
    obtain ⟨hV, rfl⟩ | ⟨hW, rfl⟩ := hb
    · exact .inl ⟨hV, rfl⟩
    · exact .inr (.inl ⟨hW, rfl⟩)
  · rw [if_neg hid, if_neg hid]
    exact h.analysis.binding id'

/-- A variable is recorded under its new name. -/
theorem recordVariable (h : c.RenamedBy f V W c') {id : NodeId} (hid : V id)
    (b : VariableBinding) :
    RenamedBy f V W { c with analysis.vars := c.analysis.vars.insert id b }
      { c' with analysis.vars := c'.analysis.vars.insert id (b.rename f) } :=
  h.record (.inl ⟨hid, rfl⟩)

/-- A field keeps its name. -/
private theorem recordField (h : c.RenamedBy f V W c') {id : NodeId} (hid : W id)
    (b : VariableBinding) :
    RenamedBy f V W { c with analysis.vars := c.analysis.vars.insert id b }
      { c' with analysis.vars := c'.analysis.vars.insert id b } :=
  h.record (.inr ⟨hid, rfl⟩)

/-- A variable is found under its new name. -/
theorem lookup? (h : c.RenamedBy f V W c') (hf : Function.Injective f) (name : String) :
    c'.scopes.lookup? (f name) = (c.scopes.lookup? name).map (VariableBinding.rename f) := by
  rw [h.scopes_eq, lookup?_rename hf]

/-- A function is found under its old one. -/
theorem function? (h : c.RenamedBy f V W c') (name : String) (arity : Nat) :
    c'.scopes.function? name arity = c.scopes.function? name arity := by
  rw [h.scopes_eq, function?_rename, Option.map_id, id]

end Checker.RenamedBy

namespace Check

variable {α β : Type} {f : String → String} {V W : NodeId → Prop} {r : Registry}

/-! ## Steps that correspond to each other -/

/-- Started at corresponding points, the two steps come to corresponding points with the same
    result, or both reject the program for the same reason. -/
def InStep (f : String → String) (V W : NodeId → Prop) (x y : Check α) : Prop :=
  ∀ c c' : Checker, c.RenamedBy f V W c' →
    match x c, y c' with
    | .ok a d, .ok b d' => b = a ∧ d.RenamedBy f V W d'
    | .error e _, .error e' _ => e' = e.rename f
    | _, _ => False

private theorem inStep_pure (a : α) :
    InStep f V W (pure a : Check α) (pure a) := fun _ _ h => ⟨rfl, h⟩

/-- An error is renamed as well. -/
private theorem inStep_throw (e : SemanticError) :
    InStep f V W (throw e : Check α) (throw (e.rename f)) :=
  fun _ _ _ => rfl

/-- Sequences stay in step. -/
theorem InStep.bind {x y : Check α} {g g' : α → Check β} (hx : InStep f V W x y)
    (hg : ∀ a, InStep f V W (g a) (g' a)) : InStep f V W (x >>= g) (y >>= g') := by
  intro c c' h
  have hstep := hx c c' h
  simp only [Bind.bind, EStateM.bind]
  cases hc : x c <;> cases hc' : y c' <;> rw [hc, hc'] at hstep
  · obtain ⟨rfl, hd⟩ := hstep
    exact hg _ _ _ hd
  · exact hstep.elim
  · exact hstep.elim
  · exact hstep

/-- Two steps that go on from what the states are. -/
private theorem inStep_get {g g' : Checker → Check α}
    (hg : ∀ c c', c.RenamedBy f V W c' → InStep f V W (g c) (g' c')) :
    InStep f V W (get >>= g) (get >>= g') :=
  fun c c' h => hg c c' h c c' h

/-- Changes of the state that correspond. -/
private theorem inStep_modify {g g' : Checker → Checker}
    (hg : ∀ c c', c.RenamedBy f V W c' → (g c).RenamedBy f V W (g' c')) :
    InStep f V W (modify g) (modify g') :=
  fun c c' h => ⟨rfl, hg c c' h⟩

/-- A result that does not depend on names, and whose error has none. -/
private theorem inStep_ofExcept {x : Except SemanticError α}
    (hx : ∀ e, x = .error e → e.rename f = e) :
    InStep f V W (ofExcept x) (ofExcept x) := by
  cases x with
  | ok a => exact inStep_pure a
  | error e =>
    have hstep := inStep_throw (f := f) (V := V) (W := W) (α := α) e
    rwa [hx e rfl] at hstep

/-- A check whose error names no variable. -/
private theorem inStep_ensure (condition : Bool) {e : SemanticError} (he : e.rename f = e) :
    InStep f V W (ensure condition e) (ensure condition e) := by
  cases condition with
  | true => exact inStep_pure ()
  | false =>
    have hstep := inStep_throw (f := f) (V := V) (W := W) (α := Unit) e
    rwa [he] at hstep

/-- Types that do not fit are told without names of variables. -/
private theorem requireAssignable_rename {target actual : Ty} {e : SemanticError}
    (h : requireAssignable target actual = .error e) : e.rename f = e := by
  unfold requireAssignable at h
  split at h
  · exact nomatch h
  · cases h
    rfl

private theorem inStep_require (target actual : Ty) :
    InStep f V W (require target actual) (require target actual) :=
  inStep_ofExcept fun _ => requireAssignable_rename

/-- A literal without a type is told without names of variables. -/
private theorem literal_rename {value : Literal} {e : SemanticError} (h : value.type = .error e) :
    e.rename f = e := by
  -- Only numbers can be out of range, and the error names no variable.
  cases value with
  | integer n =>
    simp only [Literal.type] at h
    split at h <;> cases h
    rfl
  | decimal d =>
    simp only [Literal.type] at h
    split at h <;> cases h
    rfl
  | _ => cases h

/-- Operands that cannot be calculated with are told without names of variables. -/
private theorem arithmeticType_rename {operator : Operator} {left right : Ty} {e : SemanticError}
    (h : arithmeticType operator left right = .error e) : e.rename f = e := by
  unfold arithmeticType at h
  split at h
  · exact nomatch h
  · exact nomatch h
  · cases h
    rfl

/-- Operands that do not fit are told without names of variables. -/
private theorem operator_rename {operator : Operator} {left right : Ty} {e : SemanticError}
    (h : operator.type left right = .error e) : e.rename f = e := by
  -- Booleans are demanded of both operands, from the left.
  have hboolean : (do
      requireAssignable .boolean left
      requireAssignable .boolean right
      return Ty.boolean) = Except.error e → e.rename f = e := by
    intro h
    cases hl : requireAssignable .boolean left with
    | error e' =>
      rw [hl] at h
      cases h
      exact requireAssignable_rename hl
    | ok _ =>
      cases hr : requireAssignable .boolean right with
      | error e' =>
        rw [hl, hr] at h
        cases h
        exact requireAssignable_rename hr
      | ok _ =>
        rw [hl, hr] at h
        exact nomatch h
  unfold Operator.type at h
  cases hlevel : operator.level <;> simp only [hlevel] at h
  case logical => exact hboolean h
  case comparison => exact hboolean h
  case additive =>
    split at h
    · exact nomatch h
    · exact arithmeticType_rename h
  case multiplicative => exact arithmeticType_rename h

/-- Names of types are not renamed. -/
private theorem inStep_resolve (typeName : Option String) :
    InStep f V W (resolve r typeName) (resolve r typeName) := by
  cases typeName with
  | none => exact inStep_pure none
  | some name =>
    rw [resolve]
    cases r.resolve? name with
    | none => exact inStep_throw (.unknownType name)
    | some ty => exact inStep_pure (some ty)

private theorem inStep_recordType (id : NodeId) (ty : Ty) :
    InStep f V W (recordType id ty) (recordType id ty) :=
  (inStep_modify fun _ _ h => h.recordType id ty).bind fun _ => inStep_pure ty

private theorem inStep_recordFunction (id : NodeId) (b : FunctionBinding) :
    InStep f V W (recordFunction id b) (recordFunction id b) :=
  inStep_modify fun _ _ h => h.recordFunction id b

/-! ## Expressions -/

mutual

/-- An expression and its renaming are analyzed in step. -/
private theorem inStep_expression (hf : Function.Injective f) : ∀ e : Expr,
    (∀ n ∈ e.nodes, n.Sorted V W) → InStep f V W (expression r e) (expression r (e.rename f))
  | .literal id value, _ => by
    rw [Expr.rename, expression]
    exact (inStep_ofExcept fun _ => literal_rename).bind fun ty => inStep_recordType id ty
  | .group id inner, h => by
    rw [Expr.rename, expression, expression, Expr.isBinary_rename]
    simp only [Expr.nodes, List.forall_mem_append] at h
    refine (inStep_ensure _ rfl).bind fun _ => ?_
    exact (inStep_expression hf inner h.1).bind fun ty => inStep_recordType id ty
  | .binary id operator left right, h => by
    rw [Expr.rename, expression, expression]
    simp only [Expr.nodes, List.forall_mem_append] at h
    refine (inStep_expression hf left h.1.1).bind fun leftType => ?_
    refine (inStep_expression hf right h.1.2).bind fun rightType => ?_
    exact (inStep_ofExcept fun _ => operator_rename).bind fun ty => inStep_recordType id ty
  | .var id name, h => by
    rw [Expr.rename, expression, expression]
    simp only [Expr.nodes, List.forall_mem_singleton] at h
    refine inStep_get fun c c' hc => ?_
    -- The scopes correspond name by name, so both look up the same binding.
    rw [hc.lookup? hf]
    cases c.scopes.lookup? name with
    | none => exact inStep_throw (.undefinedVariable name)
    | some binding =>
      exact (inStep_modify fun _ _ h' => h'.recordVariable (h.named rfl) binding).bind fun _ =>
        inStep_recordType id binding.ty
  | .field id receiver name, h => by
    rw [Expr.rename, expression, expression]
    simp only [Expr.nodes, List.forall_mem_append, List.forall_mem_singleton] at h
    refine (inStep_expression hf receiver h.1).bind fun receiverType => ?_
    cases receiverType.field? r.objects name with
    | none => exact inStep_throw (.unknownField receiverType name)
    | some ty =>
      -- The name of a field is not renamed.
      exact (inStep_modify fun _ _ h' => h'.recordField (h.2.field rfl) ⟨name, ty⟩).bind fun _ =>
        inStep_recordType id ty
  | .call id name items, h => by
    rw [Expr.rename, expression, expression, Expr.length_listRename]
    simp only [Expr.nodes, List.forall_mem_append] at h
    refine inStep_get fun c c' hc => ?_
    rw [hc.function?]
    cases c.scopes.function? name items.length with
    | none => exact inStep_throw (.undefinedFunction name items.length)
    | some binding =>
      refine (inStep_arguments hf items _ h.1).bind fun _ => ?_
      exact (inStep_recordFunction id binding).bind fun _ => inStep_recordType id _
  | .invoke id receiver name items, h => by
    rw [Expr.rename, expression, expression, Expr.length_listRename]
    simp only [Expr.nodes, List.forall_mem_append] at h
    refine (inStep_expression hf receiver h.1.1).bind fun receiverType => ?_
    dsimp only
    cases receiverType.method? r.objects name (items.length + 1) with
    | none => exact inStep_throw (.unknownMethod receiverType name (items.length + 1))
    | some native =>
      refine (inStep_arguments hf items _ h.1.2).bind fun _ => ?_
      exact (inStep_recordFunction id _).bind fun _ => inStep_recordType id _

/-- Arguments and their renaming are analyzed in step. -/
private theorem inStep_arguments (hf : Function.Injective f) :
    ∀ (items : List Expr) (parameters : List Ty),
    (∀ n ∈ Expr.nodesAll items, n.Sorted V W) →
    InStep f V W (arguments r items parameters) (arguments r (Expr.listRename f items) parameters)
  | [], parameters, _ => by
    rw [Expr.listRename, arguments]
    · exact inStep_pure ()
    · exact fun _ _ _ _ h _ => nomatch h
  | item :: items, [], _ => by
    rw [Expr.listRename, arguments, arguments]
    · exact inStep_pure ()
    · exact fun _ _ _ _ _ h => nomatch h
    · exact fun _ _ _ _ _ h => nomatch h
  | item :: items, parameter :: parameters, h => by
    rw [Expr.listRename, arguments, arguments]
    simp only [Expr.nodesAll, List.forall_mem_append] at h
    refine (inStep_expression hf item h.1).bind fun actual => ?_
    exact (inStep_require parameter actual).bind fun _ =>
      inStep_arguments hf items parameters h.2

end

/-! ## Statements -/

/-- Both steps change the scopes in the same way. -/
private theorem inStep_changeScopes {g g' : StaticScopes → Except ScopeError StaticScopes}
    (hg : ∀ Γ, g' (Γ.rename f (VariableBinding.rename f) id) =
      ((g Γ).map (Scopes.rename f (VariableBinding.rename f) id)).mapError (ScopeError.rename f)) :
    InStep f V W (changeScopes g) (changeScopes g') := by
  intro c c' h
  simp only [changeScopes, h.scopes_eq, hg]
  cases g c.scopes with
  | error e => rfl
  | ok Γ => exact ⟨trivial, rfl, h.analysis, h.expected_eq⟩

/-- Distinct names stay distinct, so a name is taken in both scopes or in neither. -/
private theorem inStep_defineVariable (hf : Function.Injective f) (name : String) (ty : Ty) :
    InStep f V W (defineVariable name ty) (defineVariable (f name) ty) :=
  inStep_changeScopes fun _ => defineVariable_rename hf name (VariableBinding.mk name ty)

/-- Functions keep their names. -/
private theorem inStep_defineFunction (name : String) (signature : Signature) :
    InStep f V W (defineFunction name signature) (defineFunction name signature) :=
  inStep_changeScopes fun _ =>
    defineFunction_rename name signature.arity (FunctionBinding.mk name signature)

/-- Blocks are left in step. -/
theorem InStep.inBlock {x y : Check Unit} (h : InStep f V W x y) :
    InStep f V W (inBlock x) (inBlock y) := by
  have hpush : InStep f V W (modify fun s => { s with scopes := s.scopes.push })
      (modify fun s => { s with scopes := s.scopes.push }) := by
    refine inStep_modify fun c c' hc => ⟨?_, hc.analysis, hc.expected_eq⟩
    rw [hc.scopes_eq]
    exact (rename_pushChildOf c.scopes.current).symm
  -- Frames are made and dropped alike, whatever the variables in them are called.
  have hpop : InStep f V W (modify fun s => { s with scopes := s.scopes.pop })
      (modify fun s => { s with scopes := s.scopes.pop }) := by
    refine inStep_modify fun c c' hc => ⟨?_, hc.analysis, hc.expected_eq⟩
    rw [hc.scopes_eq]
    exact rename_pop.symm
  exact hpush.bind fun _ => h.bind fun _ => hpop

/-- A declaration without a type is told with its name. -/
private theorem inStep_declaredType (name : String) (declared actual : Option Ty) :
    InStep f V W (ofExcept (declaredType name declared actual))
      (ofExcept (declaredType (f name) declared actual)) := by
  cases declared with
  | none =>
    cases actual with
    | none => exact inStep_throw (.untypedDeclaration name)
    | some ty => exact inStep_pure ty
  | some declared =>
    cases actual with
    | none => exact inStep_pure declared
    | some ty =>
      refine inStep_ofExcept fun e he => ?_
      simp only [declaredType] at he
      -- The types decide, and they are the same.
      cases hr : requireAssignable declared ty with
      | ok _ => rw [hr] at he; cases he
      | error e' =>
        rw [hr] at he
        cases he
        exact requireAssignable_rename hr

/-- A declaration and its renaming. -/
private theorem inStep_declaration (hf : Function.Injective f) {d : Declaration}
    (hnodes : ∀ e ∈ d.initializer, ∀ n ∈ e.nodes, n.Sorted V W) (hd : V d.id) :
    InStep f V W (declaration r d) (declaration r (d.rename f)) := by
  -- The initializer comes first, since its errors do.
  have hinitializer : InStep f V W (initializer r d.initializer)
      (initializer r (d.rename f).initializer) := by
    simp only [Declaration.rename]
    cases hvalue : d.initializer with
    | none => exact inStep_pure none
    | some value =>
      exact (inStep_expression hf value (hnodes value hvalue)).bind fun ty => inStep_pure (some ty)
  refine (inStep_resolve d.typeName).bind fun declared => hinitializer.bind fun actual => ?_
  refine (inStep_declaredType d.name declared actual).bind fun ty => ?_
  refine (inStep_defineVariable hf d.name ty).bind fun _ => ?_
  exact inStep_modify fun _ _ h => h.recordVariable hd ⟨d.name, ty⟩

/-- Types to return carry no names. -/
private theorem inStep_returned (actual : Ty) :
    InStep f V W (returned actual) (returned actual) := by
  refine inStep_get fun c c' hc => ?_
  rw [hc.expected_eq]
  cases c.expected with
  | some expected => exact inStep_require expected actual
  | none => exact inStep_modify fun _ _ h => ⟨h.scopes_eq, h.analysis, rfl⟩

mutual

/-- A statement and its renaming are analyzed in step. -/
private theorem inStep_statement (hf : Function.Injective f) : ∀ s : Statement,
    (∀ e ∈ s.exprs, ∀ n ∈ e.nodes, n.Sorted V W) → (∀ d ∈ s.declarations, V d.id) →
    InStep f V W (statement r s) (statement r (s.rename f))
  | .expression value, he, _ => by
    rw [Statement.rename, statement, statement, Expr.isCall_rename]
    have hvalue := inStep_expression (r := r) hf value (he value (by simp [Statement.exprs]))
    exact (inStep_ensure _ rfl).bind fun _ => hvalue.bind fun _ => inStep_pure ()
  | .declare d, he, hd => by
    rw [Statement.rename, statement, statement]
    simp only [Statement.exprs, Option.mem_toList] at he
    exact inStep_declaration hf he (hd d (by simp [Statement.declarations]))
  | .assign target value, he, _ => by
    rw [Statement.rename, statement, statement, Expr.isAccess_rename]
    simp only [Statement.exprs, List.forall_mem_cons] at he
    refine (inStep_ensure _ rfl).bind fun _ => ?_
    refine (inStep_expression hf target he.1).bind fun targetType => ?_
    refine (inStep_expression hf value he.2.1).bind fun valueType => ?_
    exact inStep_require targetType valueType
  | .ifElse condition thenBody elseBody, he, hd => by
    rw [Statement.rename, statement, statement, Statement.isEmpty_listRename]
    simp only [Statement.exprs, List.forall_mem_cons, List.forall_mem_append] at he
    simp only [Statement.declarations, List.forall_mem_append] at hd
    refine (inStep_expression hf condition he.1).bind fun ty => ?_
    refine (inStep_require _ ty).bind fun _ => (inStep_ensure _ rfl).bind fun _ => ?_
    -- The branches are checked one after the other, each in a scope that is dropped.
    exact (inStep_statements hf thenBody he.2.1 hd.1).inBlock.bind fun _ =>
      (inStep_statements hf elseBody he.2.2 hd.2).inBlock
  -- The loop variable is the only name that a statement binds besides a declaration.
  | .forIn name iterable body, he, hd => by
    rw [Statement.rename, statement, statement, Statement.isEmpty_listRename]
    simp only [Statement.exprs, List.forall_mem_cons] at he
    refine (inStep_expression hf iterable he.1).bind fun ty => ?_
    refine (inStep_require _ ty).bind fun _ => (inStep_ensure _ rfl).bind fun _ => ?_
    exact InStep.inBlock ((inStep_defineVariable hf name .integer).bind fun _ =>
      inStep_statements hf body he.2 hd)
  | .whileDo condition body, he, hd => by
    rw [Statement.rename, statement, statement, Statement.isEmpty_listRename]
    simp only [Statement.exprs, List.forall_mem_cons] at he
    refine (inStep_expression hf condition he.1).bind fun ty => ?_
    refine (inStep_require _ ty).bind fun _ => (inStep_ensure _ rfl).bind fun _ => ?_
    exact (inStep_statements hf body he.2 hd).inBlock
  | .returns value, he, _ => by
    rw [Statement.rename, statement, statement]
    refine (inStep_expression hf value (he value (by simp [Statement.exprs]))).bind fun ty => ?_
    exact inStep_returned ty

/-- Statements in a row and their renaming are analyzed in step. -/
private theorem inStep_statements (hf : Function.Injective f) : ∀ body : List Statement,
    (∀ e ∈ Statement.listExprs body, ∀ n ∈ e.nodes, n.Sorted V W) →
    (∀ d ∈ Statement.declarationsAll body, V d.id) →
    InStep f V W (statements r body) (statements r (Statement.listRename f body))
  | [], _, _ => by
    rw [Statement.listRename, statements]
    exact inStep_pure ()
  | s :: rest, he, hd => by
    rw [Statement.listRename, statements, statements]
    simp only [Statement.listExprs, List.forall_mem_append] at he
    simp only [Statement.declarationsAll, List.forall_mem_append] at hd
    exact (inStep_statement hf s he.1 hd.1).bind fun _ => inStep_statements hf rest he.2 hd.2

end

/-! ## Programs -/

/-- Annotations of parameters are not renamed. -/
private theorem inStep_parameterTypes : ∀ parameters : List Parameter,
    InStep f V W (parameterTypes r parameters)
      (parameterTypes r (parameters.map (Parameter.rename f)))
  | [] => inStep_pure []
  | p :: rest => by
    rw [List.map_cons, parameterTypes, parameterTypes]
    refine (inStep_resolve p.typeName).bind fun ty => ?_
    exact (inStep_parameterTypes rest).bind fun types => inStep_pure _

/-- Parameters are. -/
private theorem inStep_defineParameters (hf : Function.Injective f) :
    ∀ (parameters : List Parameter) (types : List Ty),
      InStep f V W (defineParameters parameters types)
        (defineParameters (parameters.map (Parameter.rename f)) types)
  | p :: ps, ty :: types => (inStep_defineVariable hf p.name ty).bind fun _ =>
    inStep_defineParameters hf ps types
  | [], _ => inStep_pure ()
  | _ :: _, [] => inStep_pure ()

/-- A method keeps its name, and its parameters and body are renamed. -/
private theorem inStep_method (hf : Function.Injective f) {m : Method}
    (he : ∀ e ∈ Statement.listExprs m.body, ∀ n ∈ e.nodes, n.Sorted V W)
    (hd : ∀ d ∈ Statement.declarationsAll m.body, V d.id) :
    InStep f V W (method r m) (method r (m.rename f)) := by
  refine (inStep_parameterTypes m.parameters).bind fun parameters => ?_
  refine (inStep_resolve m.returnTypeName).bind fun declared => ?_
  refine (inStep_defineFunction m.name _).bind fun _ => ?_
  have hexpect : InStep f V W (modify fun s => { s with expected := declared })
      (modify fun s => { s with expected := declared }) :=
    inStep_modify fun _ _ h => ⟨h.scopes_eq, h.analysis, rfl⟩
  refine hexpect.bind fun _ => ?_
  -- The parameters are renamed with the body that sees them.
  have hbody := (inStep_defineParameters (V := V) (W := W) hf m.parameters parameters).bind
    fun _ => inStep_statements (r := r) hf m.body he hd
  refine hbody.inBlock.bind fun _ => inStep_get fun c c' hc => ?_
  -- The type that the body returned is the same, so it is written back alike.
  rw [hc.expected_eq]
  have hredefine : ∀ binding : FunctionBinding, InStep f V W
      (modify fun s =>
        { s with scopes := s.scopes.redefineFunction m.name parameters.length binding })
      (modify fun s =>
        { s with scopes := s.scopes.redefineFunction m.name parameters.length binding }) := by
    intro binding
    refine inStep_modify fun _ _ h => ⟨?_, h.analysis, h.expected_eq⟩
    rw [h.scopes_eq]
    exact (rename_redefineFunction _ _ _).symm
  exact (hredefine _).bind fun _ => inStep_recordFunction m.id _

/-- Natives are not renamed. -/
private theorem inStep_natives : ∀ natives : List Native,
    InStep f V W (Check.natives natives) (Check.natives natives)
  | [] => inStep_pure ()
  | _ :: rest => (inStep_defineFunction _ _).bind fun _ => inStep_natives rest

private theorem inStep_requireMain : InStep f V W requireMain requireMain := by
  refine inStep_get fun c c' hc => ?_
  rw [hc.function?]
  cases c.scopes.function? "main" 0 with
  | none => exact inStep_throw .missingMain
  | some binding => exact inStep_require _ _

/-- Loops over lists that correspond. -/
private theorem inStep_forM {g g' : α → Check Unit} {h : α → α} {l : List α}
    (hg : ∀ a ∈ l, InStep f V W (g a) (g' (h a))) :
    InStep f V W (l.forM g) ((l.map h).forM g') := by
  induction l with
  | nil => exact inStep_pure ()
  | cons a l ih =>
    exact (hg a List.mem_cons_self).bind fun _ =>
      ih fun b hb => hg b (List.mem_cons_of_mem a hb)

/-- A program and its renaming are analyzed in step. -/
private theorem inStep_source (hf : Function.Injective f) {s : Source}
    (he : ∀ e ∈ s.exprs, ∀ n ∈ e.nodes, n.Sorted V W) (hd : ∀ d ∈ s.declarations, V d.id) :
    InStep f V W (source r s) (source r (s.rename f)) := by
  simp only [Source.exprs, List.forall_mem_append, List.forall_mem_flatMap] at he
  simp only [Source.declarations, List.forall_mem_append, List.forall_mem_flatMap] at hd
  refine (inStep_natives r.functions).bind fun _ => ?_
  -- The fields come before the methods, which see them.
  have hfields : InStep f V W (s.fields.forM (declaration r))
      ((s.rename f).fields.forM (declaration r)) :=
    inStep_forM fun d hmem => inStep_declaration hf
      (fun e hvalue => he.1 d hmem e (by simpa using hvalue)) (hd.1 d hmem)
  have hmethods : InStep f V W (s.methods.forM (method r)) ((s.rename f).methods.forM (method r)) :=
    inStep_forM fun m hmem => inStep_method hf (he.2 m hmem) (hd.2 m hmem)
  exact hfields.bind fun _ => hmethods.bind fun _ => inStep_requireMain

end Check

/-- The second side table is the first one up to the names of variables. -/
def Analysis.SameUpTo (f : String → String) (source : Source) (a a' : Analysis) : Prop :=
  a.RenamedBy f (· ∈ source.namingIds) (· ∈ source.fieldIds) a'

/-- A program and the renamed one are accepted together, with the same side table up to the names
    of variables, or are rejected for the same reason. -/
theorem analyze_rename {f : String → String} (hf : Function.Injective f) (r : Registry)
    (source : Source) :
    match analyze r source, analyze r (source.rename f) with
    | .ok a, .ok a' => a.SameUpTo f source a'
    | .error e, .error e' => e' = e.rename f
    | _, _ => False := by
  -- Two empty tables agree outside any set of ids.
  have hstart : Checker.RenamedBy f (· ∈ source.namingIds) (· ∈ source.fieldIds)
      ⟨.new, .empty, none⟩ ⟨.new, .empty, none⟩ :=
    ⟨rename_new.symm, ⟨rfl, rfl, fun _ => .inr (.inr ⟨rfl, rfl⟩)⟩, rfl⟩
  have hstep := Check.inStep_source (r := r) hf
    (fun e he n hn => Source.sorted (List.mem_flatMap.mpr ⟨e, he, hn⟩))
    (fun d hd => List.mem_append_right _ (List.mem_map_of_mem hd)) _ _ hstart
  unfold analyze
  cases hc : Check.source r source ⟨.new, .empty, none⟩ <;>
    cases hc' : Check.source r (source.rename f) ⟨.new, .empty, none⟩ <;> rw [hc, hc'] at hstep
  · exact hstep.2.analysis
  · exact hstep
  · exact hstep
  · exact hstep

end LetLang
