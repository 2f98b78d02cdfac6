import LetLang.Proofs.NameResolution

/-! # Types that a program can come to

Types are compared by name, but fields and methods are looked up at the position that a type of
objects has in the registry.  The two go together as long as only known types turn up: built-in
ones, and types of objects that stand in the registry under their own names.

In a registry that is well formed nothing else does turn up.  The checker starts from known types
and makes known types of them (`Check.Stays`), and so every expression of an accepted program is
well typed by rules that note known types only.

* `Registry.Known`, `Registry.WellFormed`   known types, and registries that mention no others
* `analyze_known`                           accepted programs are well typed with known types
-/

namespace LetLang

open Scopes

/-! ## Registries -/

namespace Registry

/-- The type is built in, or stands in the registry under its own name. -/
def Known (r : Registry) : Ty → Prop
  | .object ref => ∃ object, ref.declaration? r.objects = some object ∧ object.name = ref.name
  | _ => True

/-- The signature mentions known types only. -/
structure KnownSignature (r : Registry) (s : Signature) : Prop where
  parameters : ∀ ty ∈ s.parameters, r.Known ty
  returns : r.Known s.returns

/-- Types of objects have names of their own, and all that is registered mentions known types
    only. -/
structure WellFormed (r : Registry) : Prop where
  nodup : (r.objects.map (·.name)).Nodup
  builtin : ∀ object ∈ r.objects, ∀ ty ∈ Ty.builtin, object.name ≠ ty.name
  functions : ∀ native ∈ r.functions, r.KnownSignature native.signature
  fields : ∀ object ∈ r.objects, ∀ name ty, object.fields.get? name = some ty → r.Known ty
  methods : ∀ object ∈ r.objects, ∀ key native, object.methods.get? key = some native →
    r.KnownSignature native.signature

variable {r : Registry}

/-- A declared type is one of the registry. -/
theorem mem_of_declaration? {objects : List ObjectType} {ref : ObjectRef} {object : ObjectType}
    (h : ref.declaration? objects = some object) : object ∈ objects := by
  obtain ⟨i, _, hi⟩ := Option.bind_eq_some_iff.mp h
  exact List.mem_of_getElem? hi

/-- The built-in types are known everywhere. -/
theorem known_of_mem_builtin {ty : Ty} (h : ty ∈ Ty.builtin) : r.Known ty := by
  cases ty with
  | object ref => simp [Ty.builtin] at h
  | _ => trivial

/-- The position of a name is that of an object type with the name. -/
private theorem exists_of_position?_eq_some {name : String} {i : Nat}
    (h : r.position? name = some i) :
    ∃ object, r.objects[i]? = some object ∧ object.name = name := by
  -- The position is the last one that fits, so the one found so far is generalized.
  have hfold : ∀ (l : List (ObjectType × Nat)) (found : Option Nat),
      (∀ o ∈ l, r.objects[o.2]? = some o.1) →
      (∀ j ∈ found, ∃ object, r.objects[j]? = some object ∧ object.name = name) →
      ∀ j ∈ l.foldl (fun found o => if o.1.name = name then some o.2 else found) found,
        ∃ object, r.objects[j]? = some object ∧ object.name = name := by
    intro l
    induction l with
    | nil => exact fun found _ hfound => hfound
    | cons o rest ih =>
      intro found hl hfound
      refine ih _ (fun o' ho' => hl o' (List.mem_cons_of_mem o ho')) fun j hj => ?_
      dsimp only at hj
      split at hj
      · cases hj
        exact ⟨o.1, hl o List.mem_cons_self, by assumption⟩
      · exact hfound j hj
  refine hfold _ none (fun o ho => ?_) (fun j hj => nomatch hj) i h
  obtain ⟨object, j⟩ := o
  exact (List.mem_zipIdx_iff_getElem? ..).mp ho

/-- A name in a program stands for a known type. -/
private theorem known_of_resolve? {name : String} {ty : Ty} (h : r.resolve? name = some ty) :
    r.Known ty := by
  unfold resolve? at h
  cases hp : r.position? name with
  | some i =>
    rw [hp] at h
    cases h
    obtain ⟨object, hobject, hname⟩ := exists_of_position?_eq_some hp
    exact ⟨object, hobject, hname⟩
  | none =>
    rw [hp] at h
    exact known_of_mem_builtin (List.mem_of_find?_eq_some h)

/-- Without an annotation there is a built-in type. -/
theorem Annotates.known {otherwise ty : Ty} {typeName : Option String}
    (h : r.Annotates otherwise typeName ty) (ho : r.Known otherwise) : r.Known ty := by
  cases typeName with
  | none =>
    cases h
    exact ho
  | some name => exact known_of_resolve? h

/-- Annotations stand for known types. -/
private theorem known_of_annotates {parameters : List Parameter} {types : List Ty}
    (h : List.Forall₂ (fun p => r.Annotates .any p.typeName) parameters types) :
    ∀ ty ∈ types, r.Known ty := by
  induction h with
  | nil => exact fun _ h => nomatch h
  | cons hp _ ih =>
    intro ty hty
    obtain rfl | hty := List.mem_cons.mp hty
    · exact Annotates.known hp trivial
    · exact ih ty hty

namespace WellFormed

/-- Object types of one name are at one position. -/
theorem ref_eq (hr : r.WellFormed) {ref ref' : ObjectRef} (h : r.Known (.object ref))
    (h' : r.Known (.object ref')) (hname : ref.name = ref'.name) : ref = ref' := by
  obtain ⟨object, hobject, hn⟩ := h
  obtain ⟨object', hobject', hn'⟩ := h'
  obtain ⟨name, position⟩ := ref
  obtain ⟨name', position'⟩ := ref'
  obtain ⟨i, rfl, hi⟩ := Option.bind_eq_some_iff.mp hobject
  obtain ⟨i', rfl, hi'⟩ := Option.bind_eq_some_iff.mp hobject'
  cases hname
  -- Both positions have the same name, and names are distinct.
  have hmap : (r.objects.map (·.name))[i]? = (r.objects.map (·.name))[i']? := by
    rw [List.getElem?_map, List.getElem?_map, hi, hi', Option.map_some, Option.map_some, hn, hn']
  have hlt : i < (r.objects.map (·.name)).length := by
    rw [List.length_map]
    exact (List.getElem?_eq_some_iff.mp hi).1
  rw [List.getElem?_inj hlt hr.nodup] at hmap
  rw [hmap]

/-- A known type is determined by its name. -/
theorem eq_of_same (hr : r.WellFormed) {ty ty' : Ty} (h : r.Known ty) (h' : r.Known ty')
    (hs : ty.same ty') : ty = ty' := by
  simp only [Ty.same, beq_iff_eq] at hs
  -- Built-in types have different names, and no object type has one of them.
  have hbuiltin : ∀ {ref : ObjectRef} {ty : Ty}, r.Known (.object ref) → ty ∈ Ty.builtin →
      ref.name ≠ ty.name := by
    intro ref ty hknown hty
    obtain ⟨object, hobject, hname⟩ := hknown
    rw [← hname]
    exact hr.builtin object (mem_of_declaration? hobject) ty hty
  cases ty with
  | object ref =>
    cases ty' with
    | object ref' => exact congrArg Ty.object (hr.ref_eq h h' hs)
    | _ => exact absurd hs (hbuiltin h (by decide))
  | _ =>
    cases ty' with
    | object ref' => exact absurd hs.symm (hbuiltin h' (by decide))
    | _ => first | rfl | exact absurd hs (by decide)

/-- In a well-formed registry fields have known types. -/
theorem known_field (hr : r.WellFormed) {ty fieldType : Ty} {name : String}
    (h : ty.field? r.objects name = some fieldType) : r.Known fieldType := by
  cases ty with
  | object ref =>
    obtain ⟨object, hobject, hget⟩ := Option.bind_eq_some_iff.mp h
    exact hr.fields object (mem_of_declaration? hobject) name fieldType hget
  | _ => exact nomatch h

/-- Methods have known signatures. -/
theorem known_method (hr : r.WellFormed) {ty : Ty} {name : String} {arity : Nat} {native : Native}
    (h : ty.method? r.objects name arity = some native) : r.KnownSignature native.signature := by
  cases ty with
  | object ref =>
    obtain ⟨object, hobject, hget⟩ := Option.bind_eq_some_iff.mp h
    exact hr.methods object (mem_of_declaration? hobject) _ native hget
  | _ => exact nomatch h

end WellFormed

/-- Literals have built-in types. -/
private theorem known_literal {value : Literal} {ty : Ty} (h : value.type = .ok ty) :
    r.Known ty := by
  obtain ⟨hobject, rfl⟩ := Literal.kind_toValue h
  cases value <;> trivial

/-- Operators give Booleans, numbers and texts. -/
private theorem known_operator {operator : Operator} {left right ty : Ty}
    (h : operator.type left right = .ok ty) : r.Known ty :=
  known_of_mem_builtin (Ty.of_mem_operands ty (Operator.type_mem_operands h)).1

end Registry

/-! ## Scopes -/

/-- The variables of the frame have known types, and its functions give known types. -/
structure Frame.Known (r : Registry) (frame : Frame VariableBinding FunctionBinding) : Prop where
  vars : ∀ name binding, frame.vars.get? name = some binding → r.Known binding.ty
  functions : ∀ key binding, frame.functions.get? key = some binding →
    r.Known binding.signature.returns

/-- All variables have known types, and all functions give known types. -/
def Scopes.Known (r : Registry) (Γ : StaticScopes) : Prop :=
  ∀ (i : Nat) frame, Γ.frames[i]? = some frame → frame.Known r

namespace Scopes.Known

variable {r : Registry} {Γ Γ' : StaticScopes}

/-- A frame without bindings knows nothing unknown. -/
private theorem emptyFrame (parent previous : Option FrameId) :
    Frame.Known r ⟨parent, previous, .empty, .empty⟩ where
  vars := fun _ _ h => nomatch h
  functions := fun _ _ h => nomatch h

theorem new : (Scopes.new : StaticScopes).Known r := by
  intro i frame hframe
  obtain ⟨hi, rfl⟩ := Array.getElem?_eq_some_iff.mp hframe
  obtain rfl : i = 0 := Nat.lt_one_iff.mp hi
  exact emptyFrame _ _

/-- The type of a variable that is found is known. -/
theorem lookup? (h : Γ.Known r) {name : String} {binding : VariableBinding}
    (hl : Γ.lookup? name = some binding) : r.Known binding.ty := by
  obtain ⟨place, hsearch, rfl⟩ := Option.map_eq_some_iff.mp hl
  obtain ⟨frame, hframe, hget⟩ := Option.bind_eq_some_iff.mp (found_of_search hsearch)
  exact (h _ frame hframe).vars _ _ hget

/-- What a function that is found returns is known. -/
theorem function? (h : Γ.Known r) {name : String} {arity : Nat} {binding : FunctionBinding}
    (hf : Γ.function? name arity = some binding) : r.Known binding.signature.returns := by
  obtain ⟨place, hsearch, rfl⟩ := Option.map_eq_some_iff.mp hf
  obtain ⟨frame, hframe, hget⟩ := Option.bind_eq_some_iff.mp (found_of_search hsearch)
  exact (h _ frame hframe).functions _ _ hget

/-- A variable of a known type may be bound. -/
theorem defineVariable (h : Γ.Known r) {name : String} {ty : Ty} (hty : r.Known ty)
    (hd : Γ.defineVariable name ⟨name, ty⟩ = .ok Γ') : Γ'.Known r := by
  obtain ⟨_, rfl⟩ := defineVariable_eq_ok_iff.mp hd
  intro i frame hframe
  rw [store_frame] at hframe
  split at hframe
  · obtain ⟨old, hold, rfl⟩ := Option.map_eq_some_iff.mp hframe
    refine ⟨fun name' binding hget => ?_, (h i old hold).functions⟩
    rw [Table.get?_insert] at hget
    split at hget
    · cases hget
      exact hty
    · exact (h i old hold).vars name' binding hget
  · exact h i frame hframe

/-- A function that returns a known type may be bound, also in place of another. -/
theorem redefineFunction (h : Γ.Known r) (name : String) (arity : Nat)
    {binding : FunctionBinding} (hb : r.Known binding.signature.returns) :
    (Γ.redefineFunction name arity binding).Known r := by
  intro i frame hframe
  rw [redefineFunction_frame] at hframe
  split at hframe
  · obtain ⟨old, hold, rfl⟩ := Option.map_eq_some_iff.mp hframe
    refine ⟨(h i old hold).vars, fun key binding' hget => ?_⟩
    rw [Table.get?_insert] at hget
    split at hget
    · cases hget
      exact hb
    · exact (h i old hold).functions key binding' hget
  · exact h i frame hframe

/-- A function that returns a known type may be bound where the key is free. -/
theorem defineFunction (h : Γ.Known r) {name : String} {arity : Nat} {binding : FunctionBinding}
    (hb : r.Known binding.signature.returns)
    (hd : Γ.defineFunction name arity binding = .ok Γ') : Γ'.Known r := by
  obtain ⟨_, rfl⟩ := defineFunction_eq_ok_iff.mp hd
  exact h.redefineFunction name arity hb

theorem push (h : Γ.Known r) : Γ.push.Known r := by
  intro i frame hframe
  rw [Scopes.push, pushChildOf, Array.getElem?_push] at hframe
  split at hframe
  · cases hframe
    exact emptyFrame _ _
  · exact h i frame hframe

/-- Fewer frames know less. -/
theorem pop (h : Γ.Known r) : Γ.pop.Known r := by
  unfold Scopes.pop
  split
  · exact h
  · split
    · intro i frame hframe
      rw [Array.getElem?_pop] at hframe
      split at hframe
      · exact h i frame hframe
      · exact nomatch hframe
    · exact h

end Scopes.Known

/-! ## What the checker finds -/

/-- The checker knows of known types only. -/
structure Checker.Known (r : Registry) (c : Checker) : Prop where
  scopes : c.scopes.Known r
  expected : ∀ ty ∈ c.expected, r.Known ty

namespace Check

variable {α β : Type} {r : Registry}

/-- From a state with known types only, the step leads to such a state and gives a result of
    which `Q` holds, or fails. -/
def Stays (r : Registry) (x : Check α) (Q : α → Prop) : Prop :=
  ∀ c : Checker, c.Known r → Ends x c (fun a c' => c'.Known r ∧ Q a) fun _ _ => True

private theorem stays_pure {Q : α → Prop} {a : α} (h : Q a) :
    Stays r (pure a) Q := fun _ hc => ⟨hc, h⟩

private theorem stays_throw {Q : α → Prop} (e : SemanticError) : Stays r (throw e : Check α) Q :=
  fun _ _ => trivial

/-- A value that has a property is handed on with it. -/
theorem Stays.bind {x : Check α} {f : α → Check β} {Q : α → Prop} {Q' : β → Prop}
    (hx : Stays r x Q) (hf : ∀ a, Q a → Stays r (f a) Q') : Stays r (x >>= f) Q' :=
  fun c hc => (hx c hc).bind fun a c' _ h => hf a h.2 c' h.1

/-- A step that goes on from what the state is. -/
private theorem stays_get {f : Checker → Check α} {Q : α → Prop}
    (hf : ∀ c : Checker, c.Known r → Stays r (f c) Q) : Stays r (do f (← get)) Q :=
  fun c hc => hf c hc c hc

/-- A change of the state has to keep what is known. -/
private theorem stays_modify {f : Checker → Checker}
    (hf : ∀ c : Checker, c.Known r → (f c).Known r) :
    Stays r (modify f) fun _ => True :=
  fun c hc => ⟨hf c hc, trivial⟩

/-- A lookup gives what is known of its result. -/
private theorem stays_ofExcept {x : Except SemanticError α} {Q : α → Prop}
    (h : ∀ a, x = .ok a → Q a) :
    Stays r (ofExcept x) Q := by
  cases x with
  | ok a => exact stays_pure (h a rfl)
  | error e => exact stays_throw e

/-- Comparing two types changes nothing. -/
private theorem stays_require (target actual : Ty) :
    Stays r (require target actual) fun _ => True :=
  stays_ofExcept fun _ _ => trivial

private theorem stays_ensure (condition : Bool) (e : SemanticError) :
    Stays r (ensure condition e) fun _ => True := by
  cases condition with
  | true => exact stays_pure trivial
  | false => exact stays_throw e

/-- Recording a type hands it on. -/
private theorem stays_recordType (id : NodeId) {ty : Ty} (h : r.Known ty) :
    Stays r (recordType id ty) r.Known :=
  fun _ hc => ⟨⟨hc.scopes, hc.expected⟩, h⟩

private theorem stays_recordVariable (id : NodeId) (binding : VariableBinding) :
    Stays r (recordVariable id binding) fun _ => True :=
  stays_modify fun _ hc => ⟨hc.scopes, hc.expected⟩

private theorem stays_recordFunction (id : NodeId) (binding : FunctionBinding) :
    Stays r (recordFunction id binding) fun _ => True :=
  stays_modify fun _ hc => ⟨hc.scopes, hc.expected⟩

/-- A change of the scopes has to keep them known. -/
private theorem stays_changeScopes {f : StaticScopes → Except ScopeError StaticScopes}
    (hf : ∀ Γ Γ', Γ.Known r → f Γ = .ok Γ' → Γ'.Known r) :
    Stays r (changeScopes f) fun _ => True := by
  intro c hc
  unfold Ends changeScopes
  cases hΓ : f c.scopes with
  | ok Γ => exact ⟨⟨hf _ _ hc.scopes hΓ, hc.expected⟩, trivial⟩
  | error e => trivial

/-- A variable is bound to a known type. -/
private theorem stays_defineVariable (name : String) {ty : Ty} (h : r.Known ty) :
    Stays r (defineVariable name ty) fun _ => True :=
  stays_changeScopes fun _ _ hΓ hd => hΓ.defineVariable h hd

/-- A function is bound to a signature with known types. -/
private theorem stays_defineFunction (name : String) {signature : Signature}
    (h : r.Known signature.returns) : Stays r (defineFunction name signature) fun _ => True :=
  stays_changeScopes fun _ _ hΓ hd => hΓ.defineFunction h hd

/-- The scopes after a block are those before it. -/
theorem Stays.inBlock {body : Check Unit} (h : Stays r body fun _ => True) :
    Stays r (inBlock body) fun _ => True := by
  have hpush : ∀ c : Checker, c.Known r → Checker.Known r { c with scopes := c.scopes.push } :=
    fun _ hc => ⟨hc.scopes.push, hc.expected⟩
  have hpop : ∀ c : Checker, c.Known r → Checker.Known r { c with scopes := c.scopes.pop } :=
    fun _ hc => ⟨hc.scopes.pop, hc.expected⟩
  exact (stays_modify hpush).bind fun _ _ => h.bind fun _ _ => stays_modify hpop

/-- An annotation names a known type. -/
private theorem stays_resolve (typeName : Option String) :
    Stays r (resolve r typeName) fun declared => ∀ ty ∈ declared, r.Known ty := by
  cases typeName with
  | none => exact stays_pure fun _ h => nomatch h
  | some name =>
    rw [resolve]
    cases hr : r.resolve? name with
    | none => exact stays_throw _
    | some ty =>
      refine stays_pure fun ty' h => ?_
      cases h
      exact Registry.known_of_resolve? hr

mutual

/-- An expression has a known type. -/
private theorem stays_expression (hr : r.WellFormed) : ∀ e : Expr, Stays r (expression r e) r.Known
  | .literal id value => by
    rw [expression]
    exact (stays_ofExcept fun _ h => Registry.known_literal h).bind fun _ h =>
      stays_recordType id h
  | .group id inner => by
    rw [expression]
    exact (stays_ensure _ _).bind fun _ _ => (stays_expression hr inner).bind fun _ h =>
      stays_recordType id h
  -- An operator has one of the built-in types, which are always known.
  | .binary id operator left right => by
    rw [expression]
    refine (stays_expression hr left).bind fun leftType _ => ?_
    refine (stays_expression hr right).bind fun rightType _ => ?_
    exact (stays_ofExcept fun _ h => Registry.known_operator h).bind fun _ h =>
      stays_recordType id h
  | .var id name => by
    rw [expression]
    refine stays_get fun c hc => ?_
    cases hlookup : c.scopes.lookup? name with
    | none => exact stays_throw _
    | some binding =>
      exact (stays_recordVariable id binding).bind fun _ _ =>
        stays_recordType id (hc.scopes.lookup? hlookup)
  | .field id receiver name => by
    rw [expression]
    refine (stays_expression hr receiver).bind fun receiverType _ => ?_
    -- Types are only handed on: from the scopes, from a signature or from a member, all of which
    -- are known.
    cases hfield : receiverType.field? r.objects name with
    | none => exact stays_throw _
    | some ty =>
      exact (stays_recordVariable id _).bind fun _ _ => stays_recordType id (hr.known_field hfield)
  | .call id name items => by
    rw [expression]
    refine stays_get fun c hc => ?_
    cases hfunction : c.scopes.function? name items.length with
    | none => exact stays_throw _
    | some binding =>
      refine (stays_arguments hr items _).bind fun _ _ => ?_
      exact (stays_recordFunction id binding).bind fun _ _ =>
        stays_recordType id (hc.scopes.function? hfunction)
  | .invoke id receiver name items => by
    rw [expression]
    refine (stays_expression hr receiver).bind fun receiverType _ => ?_
    dsimp only
    -- The methods of a known type are those of a registered one.
    cases hmethod : receiverType.method? r.objects name (items.length + 1) with
    | none => exact stays_throw _
    | some native =>
      refine (stays_arguments hr items _).bind fun _ _ => ?_
      exact (stays_recordFunction id _).bind fun _ _ =>
        stays_recordType id (hr.known_method hmethod).returns

/-- Arguments are expressions. -/
private theorem stays_arguments (hr : r.WellFormed) : ∀ (items : List Expr) (parameters : List Ty),
    Stays r (arguments r items parameters) fun _ => True
  | [], _ => by
    rw [arguments]
    · exact stays_pure trivial
    · exact fun _ _ _ _ h _ => nomatch h
  -- The check walks both lists as far as the shorter one goes.
  | _ :: _, [] => by
    rw [arguments]
    · exact stays_pure trivial
    · exact fun _ _ _ _ _ h => nomatch h
  | item :: items, parameter :: parameters => by
    rw [arguments]
    exact (stays_expression hr item).bind fun actual _ => (stays_require _ _).bind fun _ _ =>
      stays_arguments hr items parameters

end

/-- A variable gets a known type. -/
private theorem stays_declaration (hr : r.WellFormed) (d : Declaration) :
    Stays r (declaration r d) fun _ => True := by
  have hinitializer : Stays r (initializer r d.initializer) fun actual =>
      ∀ ty ∈ actual, r.Known ty := by
    cases d.initializer with
    | none => exact stays_pure fun _ h => nomatch h
    | some value =>
      intro c hc
      rw [initializer, ends_map]
      refine (stays_expression hr value c hc).mono fun ty c' _ hend => ⟨hend.1, ?_⟩
      intro ty' h
      cases h
      exact hend.2
  unfold declaration
  refine (stays_resolve d.typeName).bind fun declared hdeclared => ?_
  refine hinitializer.bind fun actual hactual => ?_
  -- The variable has the declared type or the one of its initial value.
  have htype : ∀ ty, declaredType d.name declared actual = .ok ty → r.Known ty := by
    intro ty h
    unfold declaredType at h
    split at h
    · unfold requireAssignable at h
      split at h
      · cases h
        exact hdeclared _ rfl
      · exact nomatch h
    · cases h
      exact hdeclared _ rfl
    · cases h
      exact hactual _ rfl
    · exact nomatch h
  refine (stays_ofExcept htype).bind fun ty hty => ?_
  exact (stays_defineVariable d.name hty).bind fun _ _ => stays_recordVariable d.id _

/-- The type to return stays known when a `RETURN` decides it. -/
private theorem stays_returned {actual : Ty} (h : r.Known actual) :
    Stays r (returned actual) fun _ => True := by
  refine stays_get fun c hc => ?_
  cases c.expected with
  | some expected => exact stays_require _ _
  | none =>
    refine stays_modify fun c hc => ⟨hc.scopes, fun ty hty => ?_⟩
    cases hty
    exact h

mutual

/-- Statements bind variables of known types only. -/
private theorem stays_statement (hr : r.WellFormed) : ∀ s : Statement,
    Stays r (statement r s) fun _ => True
  | .expression value => by
    rw [statement]
    refine (stays_ensure _ _).bind fun _ _ => ?_
    intro c hc
    rw [ends_discard]
    exact (stays_expression hr value c hc).mono fun _ _ _ hend => ⟨hend.1, trivial⟩
  | .declare d => by
    rw [statement]
    exact stays_declaration hr d
  | .assign target value => by
    rw [statement]
    refine (stays_ensure _ _).bind fun _ _ => ?_
    refine (stays_expression hr target).bind fun _ _ => ?_
    exact (stays_expression hr value).bind fun _ _ => stays_require _ _
  | .ifElse condition thenBody elseBody => by
    rw [statement]
    refine (stays_expression hr condition).bind fun _ _ => ?_
    refine (stays_require _ _).bind fun _ _ => (stays_ensure _ _).bind fun _ _ => ?_
    exact (stays_statements hr thenBody).inBlock.bind fun _ _ =>
      (stays_statements hr elseBody).inBlock
  | .forIn name iterable body => by
    rw [statement]
    refine (stays_expression hr iterable).bind fun _ _ => ?_
    refine (stays_require _ _).bind fun _ _ => (stays_ensure _ _).bind fun _ _ => ?_
    -- The variable of a loop is an integer.
    have hdefine : Stays r (defineVariable name .integer) fun _ => True :=
      stays_defineVariable name trivial
    exact (hdefine.bind fun _ _ => stays_statements hr body).inBlock
  | .whileDo condition body => by
    rw [statement]
    refine (stays_expression hr condition).bind fun _ _ => ?_
    refine (stays_require _ _).bind fun _ _ => (stays_ensure _ _).bind fun _ _ => ?_
    exact (stays_statements hr body).inBlock
  | .returns value => by
    rw [statement]
    exact (stays_expression hr value).bind fun _ h => stays_returned h

/-- Statements in a row bind variables of known types only. -/
private theorem stays_statements (hr : r.WellFormed) : ∀ body : List Statement,
    Stays r (statements r body) fun _ => True
  | [] => by
    rw [statements]
    exact stays_pure trivial
  | s :: rest => by
    rw [statements]
    exact (stays_statement hr s).bind fun _ _ => stays_statements hr rest

end

/-- Parameters have known types. -/
private theorem stays_parameterTypes : ∀ parameters : List Parameter,
    Stays r (parameterTypes r parameters) fun types => ∀ ty ∈ types, r.Known ty
  | [] => stays_pure fun _ h => nomatch h
  | p :: rest => by
    rw [parameterTypes]
    refine (stays_resolve p.typeName).bind fun declared hdeclared => ?_
    refine (stays_parameterTypes rest).bind fun types htypes => stays_pure ?_
    intro ty hty
    obtain rfl | hty := List.mem_cons.mp hty
    -- A parameter without a type may be anything.
    · cases declared with
      | none => trivial
      | some ty => exact hdeclared ty rfl
    · exact htypes ty hty

/-- Parameters have the types that were resolved for them. -/
private theorem stays_defineParameters : ∀ (parameters : List Parameter) (types : List Ty),
    (∀ ty ∈ types, r.Known ty) → Stays r (defineParameters parameters types) fun _ => True
  | [], _, _ => stays_pure trivial
  | _ :: _, [], _ => stays_pure trivial
  | p :: ps, ty :: types, h => by
    rw [defineParameters]
    refine (stays_defineVariable p.name (h ty List.mem_cons_self)).bind fun _ _ => ?_
    exact stays_defineParameters ps types fun ty' hty' => h ty' (List.mem_cons_of_mem ty hty')

/-- A method gives a known type, also while its own body is checked. -/
private theorem stays_method (hr : r.WellFormed) (m : Method) :
    Stays r (method r m) fun _ => True := by
  unfold method
  refine (stays_parameterTypes m.parameters).bind fun parameters hparameters => ?_
  refine (stays_resolve m.returnTypeName).bind fun declared hdeclared => ?_
  -- While the body is analyzed, the method returns its annotation or anything at all.
  have hprovisional : r.Known (declared.getD .any) := by
    cases declared with
    | none => trivial
    | some ty => exact hdeclared ty rfl
  refine (stays_defineFunction m.name hprovisional).bind fun _ _ => ?_
  have hexpected : ∀ c : Checker, c.Known r → Checker.Known r { c with expected := declared } :=
    fun _ hc => ⟨hc.scopes, hdeclared⟩
  refine (stays_modify hexpected).bind fun _ _ => ?_
  have hbody := (stays_defineParameters m.parameters parameters hparameters).bind fun _ _ =>
    stays_statements hr m.body
  refine hbody.inBlock.bind fun _ _ => stays_get fun c hc => ?_
  -- Afterwards it returns what the body has fixed.
  have hreturns : r.Known (c.expected.getD .nil) := by
    cases hexpected : c.expected with
    | none => trivial
    | some ty => exact hc.expected ty hexpected
  let binding : FunctionBinding := ⟨m.name, ⟨parameters, c.expected.getD .nil⟩⟩
  have hredefine : ∀ c : Checker, c.Known r → Checker.Known r
      { c with scopes := c.scopes.redefineFunction m.name parameters.length binding } :=
    fun _ hc => ⟨hc.scopes.redefineFunction _ _ hreturns, hc.expected⟩
  exact (stays_modify hredefine).bind fun _ _ => stays_recordFunction m.id binding

private theorem stays_natives : ∀ natives : List Native,
    (∀ native ∈ natives, r.KnownSignature native.signature) →
    Stays r (Check.natives natives) fun _ => True
  | [], _ => stays_pure trivial
  | native :: rest, h => by
    rw [Check.natives]
    refine (stays_defineFunction native.name (h native List.mem_cons_self).returns).bind
      fun _ _ => ?_
    exact stays_natives rest fun other hmem => h other (List.mem_cons_of_mem native hmem)

/-- Fields are declarations. -/
private theorem stays_fields (hr : r.WellFormed) : ∀ fields : List Declaration,
    Stays r (fields.forM (declaration r)) fun _ => True
  | [] => stays_pure trivial
  | d :: rest => (stays_declaration hr d).bind fun _ _ => stays_fields hr rest

end Check

/-! ## Derivations -/

/-- The rules that note known types only. -/
def Rules.known (r : Registry) : Rules := { Rules.lax r with type := fun _ ty => r.Known ty }

section Derivations

variable {r : Registry} {Γ Γ' : StaticScopes} {returns : Ty}

mutual

/-- In scopes with known types an expression has a known type, and so have its parts. -/
theorem ExprTyped.known (hr : r.WellFormed) (hΓ : Γ.Known r) : ∀ (e : Expr) {ty : Ty},
    ExprTyped (Rules.lax r) Γ e ty → ExprTyped (Rules.known r) Γ e ty
  | .literal _ _, _, .literal htype _ => .literal htype (Registry.known_literal htype)
  | .group _ inner, _, .group hbinary hinner _ =>
    have hinner := ExprTyped.known hr hΓ inner hinner
    .group hbinary hinner hinner.noted
  | .binary _ _ left right, _, .binary hleft hright htype _ =>
    .binary (ExprTyped.known hr hΓ left hleft) (ExprTyped.known hr hΓ right hright) htype
      (Registry.known_operator htype)
  -- What a derivation uses is known: literals, bindings and members.
  | .var _ _, _, .var hlookup _ _ => .var hlookup trivial (hΓ.lookup? hlookup)
  | .field _ receiver _, _, .field hreceiver hfield _ _ =>
    .field (ExprTyped.known hr hΓ receiver hreceiver) hfield trivial (hr.known_field hfield)
  | .call _ _ items, _, .call hfunction hitems _ _ =>
    .call hfunction (ArgumentsTyped.known hr hΓ items hitems) trivial (hΓ.function? hfunction)
  | .invoke _ receiver _ items, _, .invoke hreceiver hmethod hitems _ _ =>
    .invoke (ExprTyped.known hr hΓ receiver hreceiver) hmethod
      (ArgumentsTyped.known hr hΓ items hitems) trivial (hr.known_method hmethod).returns

/-- Typed arguments are typed with known types. -/
theorem ArgumentsTyped.known (hr : r.WellFormed) (hΓ : Γ.Known r) : ∀ (items : List Expr)
    {parameters : List Ty}, ArgumentsTyped (Rules.lax r) Γ items parameters →
    ArgumentsTyped (Rules.known r) Γ items parameters
  | [], _, .nil => .nil
  | item :: items, _, .cons hitem haccepts hitems =>
    .cons (ExprTyped.known hr hΓ item hitem) haccepts (ArgumentsTyped.known hr hΓ items hitems)

end

/-- A declaration leads to scopes with known types. -/
theorem DeclarationTyped.known (hr : r.WellFormed) (hΓ : Γ.Known r) {d : Declaration}
    (h : DeclarationTyped (Rules.lax r) Γ d Γ') :
    DeclarationTyped (Rules.known r) Γ d Γ' ∧ Γ'.Known r := by
  obtain @⟨ty, hinitial, hdefine, _⟩ := h
  -- The type comes from the annotation or from the initializer, and either is known.
  have hknown : InitialTyped (Rules.known r) Γ d.typeName d.initializer ty ∧ r.Known ty := by
    generalize d.typeName = typeName at hinitial
    generalize d.initializer = initializer at hinitial
    cases hinitial with
    | annotated hresolve he haccepts =>
      exact ⟨.annotated hresolve (he.known hr hΓ) haccepts, Registry.known_of_resolve? hresolve⟩
    | bare hresolve _ => exact ⟨.bare hresolve trivial, Registry.known_of_resolve? hresolve⟩
    | inferred he => exact ⟨.inferred (he.known hr hΓ), (he.known hr hΓ).noted⟩
  exact ⟨.intro hknown.1 hdefine trivial, hΓ.defineVariable hknown.2 hdefine⟩

mutual

/-- A statement leads to scopes with known types. -/
theorem StatementTyped.known (hr : r.WellFormed) : ∀ (s : Statement) {Γ Γ' : StaticScopes},
    Γ.Known r → StatementTyped (Rules.lax r) returns Γ s Γ' →
    StatementTyped (Rules.known r) returns Γ s Γ' ∧ Γ'.Known r
  | .expression _, _, _, hΓ, .expression hvalue => ⟨.expression (hvalue.known hr hΓ), hΓ⟩
  | .declare _, _, _, hΓ, .declare hd =>
    have hd := hd.known hr hΓ
    ⟨.declare hd.1, hd.2⟩
  | .assign _ _, _, _, hΓ, .assign haccess htarget hvalue haccepts =>
    ⟨.assign haccess (htarget.known hr hΓ) (hvalue.known hr hΓ) haccepts, hΓ⟩
  | .ifElse _ thenBody elseBody, _, _, hΓ, .ifElse hc hty hthen helse =>
    ⟨.ifElse (hc.known hr hΓ) hty (StatementsTyped.known hr thenBody hΓ.push hthen).1
      (StatementsTyped.known hr elseBody hΓ.push helse).1, hΓ⟩
  -- The variable of the loop is an integer, which is known.
  | .forIn _ _ body, _, _, hΓ, .forIn hi hty hdefine hbody =>
    have hΓ₁ := hΓ.push.defineVariable (show r.Known .integer from trivial) hdefine
    ⟨.forIn (hi.known hr hΓ) hty hdefine (StatementsTyped.known hr body hΓ₁ hbody).1, hΓ⟩
  | .whileDo _ body, _, _, hΓ, .whileDo hc hty hbody =>
    ⟨.whileDo (hc.known hr hΓ) hty (StatementsTyped.known hr body hΓ.push hbody).1, hΓ⟩
  | .returns _, _, _, hΓ, .returns hvalue haccepts => ⟨.returns (hvalue.known hr hΓ) haccepts, hΓ⟩

/-- Statements in a row are typed with known types, and their scopes stay known. -/
theorem StatementsTyped.known (hr : r.WellFormed) : ∀ (body : List Statement)
    {Γ Γ' : StaticScopes}, Γ.Known r → StatementsTyped (Rules.lax r) returns Γ body Γ' →
    StatementsTyped (Rules.known r) returns Γ body Γ' ∧ Γ'.Known r
  | [], _, _, hΓ, .nil => ⟨.nil, hΓ⟩
  | s :: rest, _, _, hΓ, .cons hs hrest =>
    have hs := StatementTyped.known hr s hΓ hs
    have hrest := StatementsTyped.known hr rest hs.2 hrest
    ⟨.cons hs.1 hrest.1, hrest.2⟩

end

/-- Parameters of known types leave known scopes. -/
theorem ParametersTyped.known {parameters : List Parameter} {types : List Ty}
    (h : ParametersTyped Γ parameters types Γ') (hΓ : Γ.Known r)
    (htypes : ∀ ty ∈ types, r.Known ty) : Γ'.Known r := by
  induction h with
  | nil => exact hΓ
  | cons hdefine _ ih =>
    refine ih (hΓ.defineVariable (htypes _ List.mem_cons_self) hdefine) fun ty hty => ?_
    exact htypes ty (List.mem_cons_of_mem _ hty)

/-- The fields of a program are typed with known types. -/
theorem FieldsTyped.known (hr : r.WellFormed) {fields : List Declaration}
    (h : FieldsTyped (Rules.lax r) Γ fields Γ') (hΓ : Γ.Known r) :
    FieldsTyped (Rules.known r) Γ fields Γ' := by
  induction h with
  | nil => exact .nil
  | cons hd _ ih =>
    obtain ⟨hd, hΓ₁⟩ := hd.known hr hΓ
    exact .cons hd (ih hΓ₁)

/-- A method is well typed with known types.  What it returns is not told by its derivation, which
    may have made that up; the scopes behind the method know. -/
theorem MethodTyped.known (hr : r.WellFormed) (hΓ : Γ.Known r) (hΓ' : Γ'.Known r)
    (hlocated : Located 1 0 Γ) {m : Method} {signature : Signature}
    (h : MethodTyped (Rules.lax r) Γ m signature Γ') :
    MethodTyped (Rules.known r) Γ m signature Γ' := by
  obtain @⟨parameters, provisional, returns, Γ₁, Γ₂, Γ₃, hannotated, hprovisional, hreturns,
    hdefine, haccepts, hparameters, hbody, _⟩ := h
  have hΓ₁ : Γ₁.Known r := by
    have hknown : r.Known provisional := Registry.Annotates.known hprovisional trivial
    exact hΓ.defineFunction hknown hdefine
  have hΓ₂ := hparameters.known hΓ₁.push (Registry.known_of_annotates hannotated)
  have hbody := (StatementsTyped.known hr m.body hΓ₂ hbody).1
  -- The method has just been defined, so its signature is found.
  have hlocated₁ : Located 1 0 Γ₁ := by
    obtain ⟨_, rfl⟩ := defineFunction_eq_ok_iff.mp hdefine
    exact hlocated.redefineFunction _ _ _
  have hreturned : r.Known returns := by
    have hfound := found_function_redefineFunction hlocated₁ m.name parameters.length
      ⟨m.name, ⟨parameters, returns⟩⟩ (m.name, parameters.length)
    rw [if_pos rfl] at hfound
    obtain ⟨frame, hframe, hget⟩ := Option.bind_eq_some_iff.mp hfound
    exact (hΓ' _ frame hframe).functions _ _ hget
  refine .intro hannotated hprovisional ?_ hdefine haccepts hparameters hbody trivial
  unfold Rules.Returns at hreturns ⊢
  split at hreturns
  · exact hreturns
  · exact hreturned
  · exact hreturns

end Derivations

/-- Methods that the checker accepts are well typed with known types. -/
private theorem Check.methods_known {r : Registry} (hr : r.WellFormed) : ∀ {methods : List Method}
    {c c' : Checker}, c.Known r → c.scopes.Orderly 0 →
    methods.forM (method r) c = .ok () c' → MethodsTyped (Rules.known r) c.scopes methods c'.scopes
  | [], c, c', _, _, h => by
    cases h
    exact .nil
  | m :: rest, c, c', hc, hΓ, h => by
    obtain ⟨_, c₁, h₁, h₂⟩ := exists_of_bind_eq_ok h
    -- A method is derived first with no rule on types, and then with the types that are known.
    have hpass := method_pass (R := Rules.lax r) (fun _ _ _ _ _ _ _ => trivial) hΓ h₁
    obtain ⟨signature, hm⟩ := hpass.proves (.inl (Rules.lax_lax r))
    obtain ⟨hc₁, _⟩ := (stays_method hr m c hc).of_ok h₁
    exact .cons (hm.known hr hc.scopes hc₁.scopes hΓ.located)
      (methods_known hr hc₁ hpass.orderly h₂)

/-- In a well-formed registry, a program that the analysis accepts is well typed with known types
    only. -/
theorem analyze_known {r : Registry} (hr : r.WellFormed) {source : Source} {a : Analysis}
    (h : analyze r source = .ok a) : SourceTyped (Rules.known r) source := by
  obtain ⟨c₁, c₂, c₃, binding, h₁, h₂, h₃, _, hmain, haccepts⟩ := of_analyze_eq_ok h
  have hlax := Rules.lax_lax r
  have hstarts : ∀ d, (Rules.lax r).Starts d := fun _ _ _ _ _ _ => trivial
  have hnatives : TopPass (Rules.lax r) [] _ c₁ _ := Check.natives_pass Scopes.Orderly.new h₁
  have hfields := Check.fields_pass (R := Rules.lax r) (fun d _ => hstarts d) hnatives.orderly h₂
  have hmethods := Check.methods_pass (R := Rules.lax r) (fun _ _ d _ => hstarts d)
    hfields.orderly h₃
  -- The checker starts with nothing, and knows of known types only from there on.
  have hstart : Checker.Known r ⟨.new, .empty, none⟩ := ⟨.new, fun _ h => nomatch h⟩
  obtain ⟨hc₁, _⟩ := (Check.stays_natives r.functions hr.functions _ hstart).of_ok h₁
  obtain ⟨hc₂, _⟩ := (Check.stays_fields hr source.fields _ hc₁).of_ok h₂
  have harity := hmethods.orderly.function hmain
  exact .intro (hnatives.proves (.inl hlax)) ((hfields.proves (.inl hlax)).known hr hc₁.scopes)
    (Check.methods_known hr hc₂ hfields.orderly h₃) hmain (List.length_eq_zero_iff.mp harity)
    haccepts

end LetLang
