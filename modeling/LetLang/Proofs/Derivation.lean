import LetLang.Proofs.Footprint
import LetLang.Proofs.Scopes

/-! # What the checker accepts is well typed

The checker builds its side table while it goes through the tree, so the entry of a node is
final only when no later node has the same number.  `Rules.Settled` is that condition; it holds
of every part of a parsed program, and it is void for rules that take no notice of the table.

`Pass R returns ids c c' P` describes a stretch of the pass over the nodes `ids`: what it has
changed, and that it establishes `P` if the table is settled.  Stretches are put together with
`Pass.seq`, in the order in which the checker goes through the nodes.

* `analyze_typed`   an accepted program is well typed
-/

namespace LetLang

open Scopes

/-! ## The side table -/

namespace Analysis

/-- All that is known about a node. -/
def entry (a : Analysis) (id : NodeId) :
    Option Ty × Option VariableBinding × Option FunctionBinding :=
  (a.type? id, a.binding? id, a.function? id)

/-- Nothing has changed about the nodes that are not listed. -/
def Touched (ids : List NodeId) (a a' : Analysis) : Prop :=
  ∀ id, id ∉ ids → a'.entry id = a.entry id

/-- Nothing is touched at once. -/
theorem Touched.refl (a : Analysis) : Touched [] a a := fun _ _ => rfl

/-- What is touched in two steps is touched altogether. -/
theorem Touched.append {l l' : List NodeId} {a a' a'' : Analysis} (h : Touched l a a')
    (h' : Touched l' a' a'') : Touched (l ++ l') a a'' := by
  intro id hid
  rw [List.mem_append, not_or] at hid
  exact (h' id hid.2).trans (h id hid.1)

/-- Noting a type leaves the entries of other nodes alone. -/
private theorem entry_insert_type {a : Analysis} {id other : NodeId} {ty : Ty} (h : other ≠ id) :
    entry { a with types := a.types.insert id ty } other = a.entry other := by
  simp only [entry, type?, binding?, function?, Table.get?_insert, if_neg h]

/-- Noting a variable changes the entry of its own id only. -/
private theorem entry_insert_var {a : Analysis} {id other : NodeId} {binding : VariableBinding}
    (h : other ≠ id) :
    entry { a with vars := a.vars.insert id binding } other = a.entry other := by
  simp only [entry, type?, binding?, function?, Table.get?_insert, if_neg h]

/-- Noting a function changes the entry of its own id only. -/
private theorem entry_insert_function {a : Analysis} {id other : NodeId} {binding : FunctionBinding}
    (h : other ≠ id) :
    entry { a with functions := a.functions.insert id binding } other = a.entry other := by
  simp only [entry, type?, binding?, function?, Table.get?_insert, if_neg h]

end Analysis

open Analysis

namespace Rules

/-- What the table says about the node is noted. -/
structure Admits (R : Rules) (a : Analysis) (id : NodeId) : Prop where
  type : ∀ ty, a.type? id = some ty → R.type id ty
  binding : ∀ binding, a.binding? id = some binding → R.binding id binding
  function : ∀ binding, a.function? id = some binding → R.function id binding

/-- What is admitted of a node depends on its entry only. -/
private theorem Admits.of_entry_eq {R : Rules} {a a' : Analysis} {id : NodeId} (h : R.Admits a' id)
    (he : a'.entry id = a.entry id) : R.Admits a id := by
  simp only [entry, Prod.mk.injEq] at he
  obtain ⟨ht, hb, hf⟩ := he
  exact ⟨by rw [← ht]; exact h.type, by rw [← hb]; exact h.binding,
    by rw [← hf]; exact h.function⟩

/-- Anything may be noted about any node. -/
def Lax (R : Rules) : Prop := ∀ a id, R.Admits a id

/-- The entries of these nodes are final: no two of them have one number, and what the table
    says about them is noted. -/
def Settled (R : Rules) (ids : List NodeId) (a : Analysis) : Prop :=
  R.Lax ∨ (ids.Nodup ∧ ∀ id ∈ ids, R.Admits a id)

namespace Settled

variable {R : Rules} {l l' : List NodeId} {a a' : Analysis} {id : NodeId}

/-- A table that has settled has the right entry for every node. -/
private theorem admits (h : R.Settled l a) (hid : id ∈ l) : R.Admits a id := by
  obtain hlax | ⟨_, hadm⟩ := h
  · exact hlax a id
  · exact hadm id hid

/-- The later nodes of a list. -/
theorem right (h : R.Settled (l ++ l') a) : R.Settled l' a := by
  obtain hlax | ⟨hnodup, hadm⟩ := h
  · exact .inl hlax
  · exact .inr ⟨(List.nodup_append.mp hnodup).2.1,
      fun id hid => hadm id (List.mem_append_right l hid)⟩

/-- The earlier nodes of a list were settled before the later ones were touched. -/
theorem left (h : R.Settled (l ++ l') a') (ht : Touched l' a a') : R.Settled l a := by
  obtain hlax | ⟨hnodup, hadm⟩ := h
  · exact .inl hlax
  · obtain ⟨hl, _, hdisjoint⟩ := List.nodup_append.mp hnodup
    refine .inr ⟨hl, fun id hid => ?_⟩
    -- A node that is not listed again keeps its entry.
    have hout : id ∉ l' := fun hid' => hdisjoint id hid id hid' rfl
    exact (hadm id (List.mem_append_left l' hid)).of_entry_eq (ht id hout)

end Settled

end Rules

/-! ## Types and arities -/

/-- A type takes itself. -/
theorem Ty.accepts_self (ty : Ty) : ty.accepts ty = true := by
  simp [Ty.accepts, Ty.same]

/-- A method of an object type has a parameter for the receiver and one for each argument. -/
private theorem Ty.length_of_method? {objects : List ObjectType} {ty : Ty} {name : String} {n : Nat}
    {native : Native} (h : ty.method? objects name (n + 1) = some native) :
    n = native.signature.parameters.tail.length := by
  cases ty with
  | object ref =>
    obtain ⟨declaration, _, hget⟩ := Option.bind_eq_some_iff.mp h
    have harity := declaration.arity_eq _ _ hget
    rw [List.length_tail]
    simp only [Signature.arity] at harity
    omega
  | _ => exact nomatch h

/-- The current frame is the `k`-th inside the global one, and a function has as many
    parameters as its key says. -/
structure Scopes.Orderly (k : Nat) (Γ : StaticScopes) : Prop where
  located : Located 1 k Γ
  arity_eq : ∀ key binding, Γ.found (·.functions.get? key) 0 = some binding →
    binding.signature.arity = key.2

namespace Scopes.Orderly

variable {k : Nat} {Γ Γ' : StaticScopes}

/-- New scopes are in order. -/
theorem new : Orderly 0 (Scopes.new : StaticScopes) := ⟨located_new, fun _ _ h => nomatch h⟩

/-- A function is found by the number of its parameters. -/
theorem function (h : Γ.Orderly k) {name : String} {arity : Nat} {binding : FunctionBinding}
    (hf : Γ.function? name arity = some binding) : binding.signature.parameters.length = arity := by
  rw [function?_eq h.located] at hf
  exact h.arity_eq (name, arity) binding hf

/-- Functions are part of the shape of the scopes. -/
theorem sameShape (h : Γ.Orderly k) (hs : SameShape Γ Γ') : Γ'.Orderly k where
  located := hs.located h.located
  arity_eq := fun key binding hf => by
    obtain ⟨f, hframe, _⟩ := h.located.globalFrame
    obtain ⟨f', hframe', _, _, hfunctions⟩ := hs.frame hframe
    apply h.arity_eq key binding
    simp only [found, hframe', hframe, Option.bind_some, hfunctions] at hf ⊢
    exact hf

/-- A block adds a frame without functions. -/
theorem push (h : Γ.Orderly k) : Γ.push.Orderly (k + 1) where
  located := h.located.push
  arity_eq := fun key binding hf => by
    apply h.arity_eq key binding
    rwa [found, Scopes.push, pushChildOf_frame_lt Γ _ h.located.rooted.size_pos] at hf

/-- Binding a function under its own arity keeps the scopes in order. -/
theorem redefineFunction (h : Γ.Orderly 0) (name : String) (binding : FunctionBinding) :
    (Γ.redefineFunction name binding.signature.parameters.length binding).Orderly 0 where
  located := h.located.redefineFunction _ _ _
  arity_eq := fun key binding' hf => by
    obtain ⟨f, hframe, _⟩ := h.located.globalFrame
    rw [found, redefineFunction_frame, h.located.current_eq, place_zero, if_pos rfl, hframe,
      Option.map_some, Option.bind_some, Table.get?_insert] at hf
    -- The new binding stands under its own arity, and the old ones are as before.
    split at hf
    · cases hf
      subst key
      rfl
    · refine h.arity_eq key binding' ?_
      rwa [found, hframe, Option.bind_some]

end Scopes.Orderly

/-! ## Stretches of the pass -/

/-- The pass has gone through the nodes `ids`, from `c` to `c'`.  It has only added to the
    current frame, it keeps the type to return once that is known, and it establishes `P` if
    the table is settled and the method returns `returns`. -/
structure Pass (R : Rules) (returns : Ty) (ids : List NodeId) (c c' : Checker) (P : Prop) :
    Prop where
  grows : Grows c.scopes c'.scopes
  expected : ∀ ty, c.expected = some ty → c'.expected = some ty
  touched : Touched ids c.analysis c'.analysis
  proves : (∀ ty, c'.expected = some ty → ty = returns) → R.Settled ids c'.analysis → P

namespace Pass

variable {R : Rules} {returns : Ty} {l l' : List NodeId} {c c' c'' : Checker} {P P' : Prop}

/-- A step that does nothing passes, if what it shows is true. -/
theorem refl (hP : P) : Pass R returns [] c c P :=
  ⟨.refl _, fun _ h => h, .refl _, fun _ _ => hP⟩

/-- A weaker conclusion may be drawn from a step. -/
theorem imp (h : Pass R returns l c c' P) (hP : P → P') : Pass R returns l c c' P' :=
  { h with proves := fun he hs => hP (h.proves he hs) }

/-- One stretch after another. -/
theorem seq (h : Pass R returns l c c' P) (h' : Pass R returns l' c' c'' P') :
    Pass R returns (l ++ l') c c'' (P ∧ P') where
  grows := h.grows.trans h'.grows
  expected := fun ty hty => h'.expected ty (h.expected ty hty)
  touched := h.touched.append h'.touched
  proves := fun he hs =>
    -- The first stretch was settled when it ended, since the second has other nodes.
    ⟨h.proves (fun ty hty => he ty (h'.expected ty hty)) (hs.left h'.touched),
      h'.proves he hs.right⟩

/-- A stretch that goes through no node. -/
private theorem seq_nil (h : Pass R returns l c c' P) (h' : Pass R returns [] c' c'' P') :
    Pass R returns l c c'' (P ∧ P') := by
  have hseq := h.seq h'
  rwa [List.append_nil] at hseq

/-- A record about one node. -/
theorem record {id : NodeId} {a : Analysis}
    (h : ∀ other, other ≠ id → a.entry other = c.analysis.entry other) :
    Pass R returns [id] c { c with analysis := a } (R.Admits a id) where
  grows := .refl _
  expected := fun _ h => h
  touched := fun other hother => h other fun heq => hother (heq ▸ List.mem_singleton_self id)
  proves := fun _ hs => hs.admits (List.mem_singleton_self id)

/-- A definition in the current scope. -/
theorem define {name : String} {binding : VariableBinding} {Γ : StaticScopes}
    (h : c.scopes.defineVariable name binding = .ok Γ) :
    Pass R returns [] c { c with scopes := Γ } True where
  grows := .of_defineVariable h
  expected := fun _ h => h
  touched := .refl _
  proves := fun _ _ => trivial

/-- A block, which leaves nothing in the scopes. -/
theorem inBlock (h : Pass R returns l { c with scopes := c.scopes.push } c' P)
    (hc : 0 < c.scopes.frames.size) :
    c'.scopes.pop = c.scopes ∧ Pass R returns l c { c' with scopes := c'.scopes.pop } P := by
  have hpop := h.grows.pop hc
  refine ⟨hpop, ?_, h.expected, h.touched, h.proves⟩
  show Grows c.scopes c'.scopes.pop
  rw [hpop]
  exact .refl _

end Pass

/-! ## The type to return -/

/-- While `values` are returned, the type to return goes from `before` to `after`: unless it is
    known, the first of them fixes it. -/
def Rules.Fixes (R : Rules) (values : List Expr) (before after : Option Ty) : Prop :=
  match before, values with
  | some ty, _ => after = some ty
  | none, [] => after = none
  | none, value :: _ => ∃ ty, after = some ty ∧ R.type value.id ty

namespace Rules.Fixes

variable {R : Rules} {values values' : List Expr} {before between after : Option Ty}

/-- A step without `RETURN` leaves the type to return as it is. -/
private theorem of_eq (h : after = before) : R.Fixes [] before after := by
  cases before <;> exact h

/-- Values returned in two steps fix the type one after the other. -/
theorem append (h : R.Fixes values before between) (h' : R.Fixes values' between after) :
    R.Fixes (values ++ values') before after := by
  -- A type that is fixed already stays; otherwise the first value fixes it.
  cases before with
  | some ty =>
    obtain rfl : between = some ty := h
    exact h'
  | none =>
    cases values with
    | nil =>
      obtain rfl : between = none := h
      exact h'
    | cons value rest =>
      obtain ⟨ty, rfl, hty⟩ := h
      exact ⟨ty, h', hty⟩

end Rules.Fixes

namespace Check

/-! ## Steps of the checker -/

section Steps

variable {α : Type} {c c' : Checker}

/-- A check that is passed changes nothing. -/
theorem of_ofExcept_eq_ok {x : Except SemanticError α} {a : α} (h : ofExcept x c = .ok a c') :
    x = .ok a ∧ c' = c := by
  cases x with
  | ok b => cases h; exact ⟨rfl, rfl⟩
  | error e => exact nomatch h

/-- A condition that was ensured holds, and the check goes on where it was. -/
private theorem of_ensure_eq_ok {condition : Bool} {e : SemanticError}
    (h : ensure condition e c = .ok () c') : condition = true ∧ c' = c := by
  cases condition with
  | true => cases h; exact ⟨rfl, rfl⟩
  | false => exact nomatch h

/-- A type that was required fits, and the check goes on where it was. -/
private theorem of_require_eq_ok {target actual : Ty} (h : require target actual c = .ok () c') :
    target.accepts actual = true ∧ c' = c := by
  obtain ⟨ha, rfl⟩ := of_ofExcept_eq_ok h
  unfold requireAssignable at ha
  split at ha
  · exact ⟨by assumption, rfl⟩
  · exact nomatch ha

/-- A function of the result changes the result only. -/
private theorem of_map_eq_ok {β : Type} {x : Check α} {f : α → β} {b : β}
    (h : (f <$> x) c = .ok b c') :
    ∃ a, x c = .ok a c' ∧ b = f a := by
  simp only [Functor.map, EStateM.map] at h
  cases hx : x c with
  | ok a c₁ => rw [hx] at h; cases h; exact ⟨a, rfl, rfl⟩
  | error e c₁ => rw [hx] at h; exact nomatch h

/-- A change of the scopes that succeeds changes nothing else. -/
private theorem of_changeScopes_eq_ok {f : StaticScopes → Except ScopeError StaticScopes}
    (h : changeScopes f c = .ok () c') :
    ∃ Γ, f c.scopes = .ok Γ ∧ c' = { c with scopes := Γ } := by
  unfold changeScopes at h
  cases hf : f c.scopes with
  | ok Γ => rw [hf] at h; cases h; exact ⟨Γ, rfl, rfl⟩
  | error e => rw [hf] at h; exact nomatch h

/-- A block is left as it was entered, and the body has seen one more frame. -/
private theorem of_inBlock_eq_ok {body : Check Unit} (h : inBlock body c = .ok () c') :
    ∃ c₁, body { c with scopes := c.scopes.push } = .ok () c₁ ∧
      c' = { c₁ with scopes := c₁.scopes.pop } := by
  obtain ⟨_, _, hpush, h⟩ := exists_of_bind_eq_ok h
  cases hpush
  obtain ⟨_, c₁, hbody, hpop⟩ := exists_of_bind_eq_ok h
  cases hpop
  exact ⟨c₁, hbody, rfl⟩

/-- What is recorded about expressions leaves the type to return alone. -/
private theorem footprint_expected :
    Footprint (fun c c' => c'.expected = c.expected) (fun _ => True)
    (fun _ => True) (fun _ => True) where
  refl := fun _ => rfl
  trans := fun h h' => h'.trans h
  type := fun _ _ _ _ => rfl
  binding := fun _ _ _ _ => rfl
  function := fun _ _ _ _ => rfl

/-- An expression decides nothing about the type to return. -/
private theorem expression_expected {r : Registry} {e : Expr} {ty : Ty}
    (h : expression r e c = .ok ty c') : c'.expected = c.expected := by
  have hall := fun n (_ : n ∈ e.nodes) => Expr.permitted_all n
  exact (leaves_expression footprint_expected e hall c).of_ok h

/-- A declaration leaves the expected type alone. -/
private theorem declaration_expected {r : Registry} {d : Declaration}
    (h : declaration r d c = .ok () c') : c'.expected = c.expected := by
  have hall := fun e (_ : e ∈ d.initializer) n (_ : n ∈ e.nodes) => Expr.permitted_all n
  exact (leaves_declaration footprint_expected (fun _ _ => rfl) hall trivial c).of_ok h

/-- The definition of parameters leaves the expected type alone. -/
private theorem defineParameters_expected {parameters : List Parameter} {types : List Ty}
    (h : defineParameters parameters types c = .ok () c') : c'.expected = c.expected :=
  (leaves_defineParameters footprint_expected (fun _ _ => rfl) parameters types c).of_ok h

/-- An annotation is resolved to the type that it names. -/
private theorem of_resolve_eq_ok {r : Registry} {typeName : Option String} {ty : Option Ty}
    (h : resolve r typeName c = .ok ty c') :
    c' = c ∧ (typeName = none ∧ ty = none ∨
      ∃ name declared, typeName = some name ∧ r.resolve? name = some declared ∧
        ty = some declared) := by
  cases typeName with
  | none => cases h; exact ⟨rfl, .inl ⟨rfl, rfl⟩⟩
  | some name =>
    simp only [resolve] at h
    -- A name that is not registered is an error.
    cases hr : r.resolve? name with
    | none => rw [hr] at h; cases h
    | some declared =>
      rw [hr] at h
      cases h
      exact ⟨rfl, .inr ⟨name, declared, rfl, hr, rfl⟩⟩

end Steps

/-! ## Records -/

section Records

variable {R : Rules} {returns : Ty} {c c' : Checker} {id : NodeId} {ty ty' : Ty}

/-- Noting a type touches one node, and makes the note. -/
private theorem recordType_pass (h : recordType id ty c = .ok ty' c') :
    ty' = ty ∧ c'.scopes = c.scopes ∧ Pass R returns [id] c c' (R.type id ty) := by
  cases h
  refine ⟨rfl, rfl, (Pass.record fun other ho => entry_insert_type ho).imp fun hadm => ?_⟩
  exact hadm.type ty (by rw [type?, Table.get?_insert, if_pos rfl])

/-- Noting a variable touches one node, and makes the note. -/
private theorem recordVariable_pass {binding : VariableBinding}
    (h : recordVariable id binding c = .ok () c') :
    c'.scopes = c.scopes ∧ Pass R returns [id] c c' (R.binding id binding) := by
  cases h
  refine ⟨rfl, (Pass.record fun other ho => entry_insert_var ho).imp fun hadm => ?_⟩
  exact hadm.binding binding (by rw [binding?, Table.get?_insert, if_pos rfl])

/-- Noting a function touches one node, and makes the note. -/
private theorem recordFunction_pass {binding : FunctionBinding}
    (h : recordFunction id binding c = .ok () c') :
    c'.scopes = c.scopes ∧ Pass R returns [id] c c' (R.function id binding) := by
  cases h
  refine ⟨rfl, (Pass.record fun other ho => entry_insert_function ho).imp fun hadm => ?_⟩
  exact hadm.function binding (by rw [Analysis.function?, Table.get?_insert, if_pos rfl])

/-- An access has a variable and a type. -/
private theorem recordAccess_pass {binding : VariableBinding}
    (h : (do recordVariable id binding; recordType id ty) c = .ok ty' c') :
    ty' = ty ∧ c'.scopes = c.scopes ∧
      Pass R returns [id] c c' (R.binding id binding ∧ R.type id ty) := by
  cases h
  refine ⟨rfl, rfl, (Pass.record fun other ho =>
    (entry_insert_type ho).trans (entry_insert_var ho)).imp fun hadm => ?_⟩
  refine ⟨hadm.binding binding ?_, hadm.type ty ?_⟩
  · rw [binding?, Table.get?_insert, if_pos rfl]
  · rw [type?, Table.get?_insert, if_pos rfl]

/-- A call has a function and a type. -/
private theorem recordCall_pass {binding : FunctionBinding}
    (h : (do recordFunction id binding; recordType id ty) c = .ok ty' c') :
    ty' = ty ∧ c'.scopes = c.scopes ∧
      Pass R returns [id] c c' (R.function id binding ∧ R.type id ty) := by
  cases h
  refine ⟨rfl, rfl, (Pass.record fun other ho =>
    (entry_insert_type ho).trans (entry_insert_function ho)).imp fun hadm => ?_⟩
  refine ⟨hadm.function binding ?_, hadm.type ty ?_⟩
  · rw [Analysis.function?, Table.get?_insert, if_pos rfl]
  · rw [type?, Table.get?_insert, if_pos rfl]

end Records

/-! ## Expressions -/

section Expressions

variable {R : Rules} {returns : Ty}

mutual

/-- An accepted expression has the type that the checker gives it. -/
private theorem expression_pass {k : Nat} : ∀ (e : Expr) {c c' : Checker} {ty : Ty},
    c.scopes.Orderly k → expression R.registry e c = .ok ty c' →
    c'.scopes = c.scopes ∧ Pass R returns e.ids c c' (ExprTyped R c.scopes e ty)
  | .literal id value, c, c', ty, hΓ, h => by
    -- The steps of the checker are taken apart in its own order; each leaves the scopes alone, so
    -- the passes can be put together in those of the expression.
    rw [expression] at h
    obtain ⟨ty₁, c₁, h₁, h₂⟩ := exists_of_bind_eq_ok h
    obtain ⟨htype, rfl⟩ := of_ofExcept_eq_ok h₁
    obtain ⟨rfl, hscopes, hrecord⟩ := recordType_pass h₂
    exact ⟨hscopes, hrecord.imp fun hnoted => .literal htype hnoted⟩
  | .group id inner, c, c', ty, hΓ, h => by
    rw [expression] at h
    obtain ⟨_, c₁, h₁, h₂⟩ := exists_of_bind_eq_ok h
    obtain ⟨hbinary, rfl⟩ := of_ensure_eq_ok h₁
    obtain ⟨ty₁, c₂, h₃, h₄⟩ := exists_of_bind_eq_ok h₂
    obtain ⟨hs₁, hinner⟩ := expression_pass inner hΓ h₃
    obtain ⟨rfl, hs₂, hrecord⟩ := recordType_pass h₄
    rw [Expr.ids]
    exact ⟨hs₂.trans hs₁, (hinner.seq hrecord).imp fun ⟨hi, hnoted⟩ => .group hbinary hi hnoted⟩
  | .binary id operator left right, c, c', ty, hΓ, h => by
    rw [expression] at h
    obtain ⟨leftType, c₁, h₁, h₂⟩ := exists_of_bind_eq_ok h
    obtain ⟨hs₁, hleft⟩ := expression_pass left hΓ h₁
    obtain ⟨rightType, c₂, h₃, h₄⟩ := exists_of_bind_eq_ok h₂
    -- Expressions leave the scopes alone, so both operands are seen in the same ones.
    obtain ⟨hs₂, hright⟩ := expression_pass right (hs₁ ▸ hΓ) h₃
    obtain ⟨ty₁, c₃, h₅, h₆⟩ := exists_of_bind_eq_ok h₄
    obtain ⟨htype, rfl⟩ := of_ofExcept_eq_ok h₅
    obtain ⟨rfl, hs₃, hrecord⟩ := recordType_pass h₆
    rw [hs₁] at hs₂ hright
    rw [Expr.ids]
    exact ⟨hs₃.trans hs₂, ((hleft.seq hright).seq hrecord).imp
      fun ⟨⟨hl, hr⟩, hnoted⟩ => .binary hl hr htype hnoted⟩
  | .var id name, c, c', ty, hΓ, h => by
    rw [expression] at h
    obtain ⟨_, _, hget, h₁⟩ := exists_of_bind_eq_ok h
    cases hget
    -- An access is accepted only if the name is found.
    cases hlookup : c.scopes.lookup? name with
    | none => simp only [hlookup] at h₁; exact nomatch h₁
    | some binding =>
      simp only [hlookup] at h₁
      obtain ⟨rfl, hscopes, hrecord⟩ := recordAccess_pass h₁
      exact ⟨hscopes, hrecord.imp fun ⟨hb, ht⟩ => .var hlookup hb ht⟩
  | .field id receiver name, c, c', ty, hΓ, h => by
    rw [expression] at h
    obtain ⟨receiverType, c₁, h₁, h₂⟩ := exists_of_bind_eq_ok h
    obtain ⟨hs₁, hreceiver⟩ := expression_pass receiver hΓ h₁
    cases hfield : receiverType.field? R.registry.objects name with
    | none => simp only [hfield] at h₂; exact nomatch h₂
    | some fieldType =>
      simp only [hfield] at h₂
      obtain ⟨rfl, hs₂, hrecord⟩ := recordAccess_pass h₂
      rw [Expr.ids]
      exact ⟨hs₂.trans hs₁, (hreceiver.seq hrecord).imp
        fun ⟨hr, hb, ht⟩ => .field hr hfield hb ht⟩
  | .call id name items, c, c', ty, hΓ, h => by
    rw [expression] at h
    obtain ⟨_, _, hget, h₁⟩ := exists_of_bind_eq_ok h
    cases hget
    cases hfunction : c.scopes.function? name items.length with
    | none => simp only [hfunction] at h₁; exact nomatch h₁
    | some binding =>
      simp only [hfunction] at h₁
      obtain ⟨_, c₁, h₂, h₃⟩ := exists_of_bind_eq_ok h₁
      -- The function was found by the number of arguments, so it has as many parameters.
      obtain ⟨hs₁, hitems⟩ := arguments_pass items _ hΓ (hΓ.function hfunction).symm h₂
      obtain ⟨rfl, hs₂, hrecord⟩ := recordCall_pass h₃
      rw [Expr.ids]
      exact ⟨hs₂.trans hs₁, (hitems.seq hrecord).imp
        fun ⟨hi, hf, ht⟩ => .call hfunction hi hf ht⟩
  | .invoke id receiver name items, c, c', ty, hΓ, h => by
    rw [expression] at h
    obtain ⟨receiverType, c₁, h₁, h₂⟩ := exists_of_bind_eq_ok h
    obtain ⟨hs₁, hreceiver⟩ := expression_pass receiver hΓ h₁
    cases hmethod : receiverType.method? R.registry.objects name (items.length + 1) with
    | none => simp only [hmethod] at h₂; exact nomatch h₂
    | some native =>
      simp only [hmethod] at h₂
      obtain ⟨_, c₂, h₃, h₄⟩ := exists_of_bind_eq_ok h₂
      -- The arity of a method counts the receiver, which is not among the arguments.
      have hlength := Ty.length_of_method? hmethod
      obtain ⟨hs₂, hitems⟩ := arguments_pass items _ (hs₁ ▸ hΓ) hlength h₃
      obtain ⟨rfl, hs₃, hrecord⟩ := recordCall_pass h₄
      rw [hs₁] at hs₂ hitems
      rw [Expr.ids]
      exact ⟨hs₃.trans hs₂, ((hreceiver.seq hitems).seq hrecord).imp
        fun ⟨⟨hr, hi⟩, hf, ht⟩ => .invoke hr hmethod hi hf ht⟩

/-- Accepted arguments fit the parameters, one by one. -/
private theorem arguments_pass {k : Nat} :
    ∀ (items : List Expr) (parameters : List Ty) {c c' : Checker},
    c.scopes.Orderly k → items.length = parameters.length →
    arguments R.registry items parameters c = .ok () c' →
    c'.scopes = c.scopes ∧
      Pass R returns (Expr.idsAll items) c c' (ArgumentsTyped R c.scopes items parameters)
  | [], [], c, c', hΓ, hlength, h => by
    rw [arguments] at h
    · cases h
      exact ⟨rfl, .refl .nil⟩
    · exact fun _ _ _ _ h _ => nomatch h
  | [], _ :: _, _, _, _, hlength, _ => by simp at hlength
  | _ :: _, [], _, _, _, hlength, _ => by simp at hlength
  | item :: items, parameter :: parameters, c, c', hΓ, hlength, h => by
    rw [arguments] at h
    obtain ⟨actual, c₁, h₁, h₂⟩ := exists_of_bind_eq_ok h
    obtain ⟨hs₁, hitem⟩ := expression_pass item hΓ h₁
    obtain ⟨_, c₂, h₃, h₄⟩ := exists_of_bind_eq_ok h₂
    obtain ⟨haccepts, rfl⟩ := of_require_eq_ok h₃
    -- The checker stops at the shorter list; equally long ones are checked to the end.
    have hrest : items.length = parameters.length := Nat.succ.inj hlength
    obtain ⟨hs₂, hitems⟩ := arguments_pass items parameters (hs₁ ▸ hΓ) hrest h₄
    rw [hs₁] at hs₂ hitems
    rw [Expr.idsAll]
    exact ⟨hs₂, (hitem.seq hitems).imp fun ⟨hi, hr⟩ => .cons hi haccepts hr⟩

end

end Expressions

/-! ## Statements -/

section Statements

variable {R : Rules} {returns : Ty} {c c' : Checker} {k : Nat}

/-- An accepted initial value makes a variable of the declared type. -/
private theorem initial_pass {d : Declaration} {declared actual : Option Ty} {ty : Ty}
    (hstarts : R.Starts d) (hΓ : c.scopes.Orderly k)
    (hdeclared : d.typeName = none ∧ declared = none ∨
      ∃ name annotation, d.typeName = some name ∧ R.registry.resolve? name = some annotation ∧
        declared = some annotation)
    (hactual : initializer R.registry d.initializer c = .ok actual c')
    (hty : declaredType d.name declared actual = .ok ty) :
    c'.scopes = c.scopes ∧ Pass R returns (d.initializer.elim [] Expr.ids) c c'
      (InitialTyped R c.scopes d.typeName d.initializer ty) := by
  cases hvalue : d.initializer with
  | none =>
    rw [hvalue] at hactual
    cases hactual
    -- Neither an annotation nor an initial value is an error.
    obtain ⟨_, rfl⟩ | ⟨name, annotation, hname, hresolve, rfl⟩ := hdeclared
    · exact nomatch hty
    · cases hty
      rw [hname]
      exact ⟨rfl, .refl (.bare hresolve (hstarts name _ hvalue hname hresolve))⟩
  | some value =>
    rw [hvalue] at hactual
    obtain ⟨valueType, hrun, rfl⟩ := of_map_eq_ok hactual
    obtain ⟨hscopes, hpass⟩ := expression_pass value hΓ hrun
    refine ⟨hscopes, hpass.imp fun htyped => ?_⟩
    -- Without an annotation the variable has the type of its initial value.
    obtain ⟨hname, rfl⟩ | ⟨name, annotation, hname, hresolve, rfl⟩ := hdeclared
    · cases hty
      rw [hname]
      exact .inferred htyped
    · rw [hname]
      simp only [declaredType, requireAssignable] at hty
      split at hty
      · cases hty
        exact .annotated hresolve htyped (by assumption)
      · exact nomatch hty

/-- An accepted declaration defines its variable. -/
private theorem declaration_pass {d : Declaration} (hstarts : R.Starts d) (hΓ : c.scopes.Orderly k)
    (h : declaration R.registry d c = .ok () c') :
    Pass R returns d.ids c c' (DeclarationTyped R c.scopes d c'.scopes) := by
  unfold declaration at h
  obtain ⟨declared, c₁, h₁, h₂⟩ := exists_of_bind_eq_ok h
  -- The annotation is resolved first, then the initial value is checked against it.
  obtain ⟨rfl, hdeclared⟩ := of_resolve_eq_ok h₁
  obtain ⟨actual, c₂, h₃, h₄⟩ := exists_of_bind_eq_ok h₂
  obtain ⟨ty, c₃, h₅, h₆⟩ := exists_of_bind_eq_ok h₄
  obtain ⟨hty, rfl⟩ := of_ofExcept_eq_ok h₅
  obtain ⟨hs₁, hinitial⟩ := initial_pass hstarts hΓ hdeclared h₃ hty
  obtain ⟨_, c₄, h₇, h₈⟩ := exists_of_bind_eq_ok h₆
  obtain ⟨Γ, hdefine, rfl⟩ := of_changeScopes_eq_ok h₇
  obtain ⟨hs₂, hrecord⟩ := recordVariable_pass h₈
  refine ((hinitial.seq_nil (Pass.define hdefine)).seq hrecord).imp ?_
  intro hall
  obtain ⟨⟨hi, _⟩, hnoted⟩ := hall
  -- The variable is defined in the scopes that the initial value has seen, so it does not see
  -- itself.
  rw [hs₁] at hdefine
  rw [hs₂]
  exact .intro hi hdefine hnoted

/-- What is returned fits what the method returns. -/
private theorem returned_pass {actual : Ty} (h : returned actual c = .ok () c') :
    c'.scopes = c.scopes ∧ Pass R returns [] c c' (returns.accepts actual = true) ∧
      ((∃ ty, c.expected = some ty ∧ c'.expected = some ty) ∨
        c.expected = none ∧ c'.expected = some actual) := by
  obtain ⟨_, _, hget, h₁⟩ := exists_of_bind_eq_ok h
  cases hget
  cases hexpected : c.expected with
  | some expected =>
    simp only [hexpected] at h₁
    obtain ⟨haccepts, rfl⟩ := of_require_eq_ok h₁
    -- The type to return is known, and it stays.
    refine ⟨rfl, ⟨.refl _, fun _ h => h, .refl _, fun he _ => ?_⟩,
      .inl ⟨expected, rfl, hexpected⟩⟩
    rwa [← he expected hexpected]
  | none =>
    simp only [hexpected] at h₁
    cases h₁
    -- The first `RETURN` of a method without an annotation decides its type.
    refine ⟨rfl, ⟨.refl _, fun ty h => ?_, .refl _, fun he _ => ?_⟩, .inr ⟨rfl, rfl⟩⟩
    · rw [hexpected] at h
      exact nomatch h
    · rw [← he actual rfl]
      exact Ty.accepts_self actual

mutual

/-- An accepted statement is well typed. -/
private theorem statement_pass : ∀ (s : Statement) {c c' : Checker} {k : Nat},
    (∀ d ∈ s.declarations, R.Starts d) → c.scopes.Orderly k →
    statement R.registry s c = .ok () c' →
    Pass R returns s.ids c c' (StatementTyped R returns c.scopes s c'.scopes ∧
      R.Fixes s.returned c.expected c'.expected)
  | .expression value, c, c', k, hd, hΓ, h => by
    rw [statement] at h
    obtain ⟨_, c₁, h₁, h₂⟩ := exists_of_bind_eq_ok h
    -- Only the type of the value is of interest, and it is not used.
    obtain ⟨_, rfl⟩ := of_ensure_eq_ok h₁
    obtain ⟨ty, h₃, _⟩ := of_map_eq_ok h₂
    obtain ⟨hs, hvalue⟩ := expression_pass value hΓ h₃
    rw [hs]
    exact hvalue.imp fun hv => ⟨.expression hv, .of_eq (expression_expected h₃)⟩
  | .declare d, c, c', k, hd, hΓ, h => by
    rw [statement] at h
    have hstarts : R.Starts d := hd d (by rw [Statement.declarations]; exact List.mem_singleton_self d)
    exact (declaration_pass hstarts hΓ h).imp fun hdeclared =>
      ⟨.declare hdeclared, .of_eq (declaration_expected h)⟩
  | .assign target value, c, c', k, hd, hΓ, h => by
    rw [statement] at h
    obtain ⟨_, c₁, h₁, h₂⟩ := exists_of_bind_eq_ok h
    -- Target and value are checked in this order, and neither changes the scopes.
    obtain ⟨haccess, rfl⟩ := of_ensure_eq_ok h₁
    obtain ⟨targetType, c₂, h₃, h₄⟩ := exists_of_bind_eq_ok h₂
    obtain ⟨hs₁, htarget⟩ := expression_pass target hΓ h₃
    obtain ⟨valueType, c₃, h₅, h₆⟩ := exists_of_bind_eq_ok h₄
    obtain ⟨hs₂, hvalue⟩ := expression_pass value (hs₁ ▸ hΓ) h₅
    obtain ⟨haccepts, rfl⟩ := of_require_eq_ok h₆
    rw [hs₁] at hs₂ hvalue
    rw [hs₂]
    have hexpected := (expression_expected h₅).trans (expression_expected h₃)
    exact (htarget.seq hvalue).imp fun ⟨ht, hv⟩ =>
      ⟨.assign haccess ht hv haccepts, .of_eq hexpected⟩
  | .ifElse condition thenBody elseBody, c, c', k, hd, hΓ, h => by
    rw [statement] at h
    obtain ⟨ty, c₁, h₁, h₂⟩ := exists_of_bind_eq_ok h
    obtain ⟨hs₁, hcondition⟩ := expression_pass condition hΓ h₁
    obtain ⟨_, c₂, h₃, h₄⟩ := exists_of_bind_eq_ok h₂
    obtain ⟨haccepts, rfl⟩ := of_require_eq_ok h₃
    obtain ⟨_, c₃, h₅, h₆⟩ := exists_of_bind_eq_ok h₄
    obtain ⟨_, rfl⟩ := of_ensure_eq_ok h₅
    obtain ⟨_, c₄, h₇, h₈⟩ := exists_of_bind_eq_ok h₆
    rw [Statement.declarations] at hd
    have hdThen : ∀ d ∈ Statement.declarationsAll thenBody, R.Starts d :=
      fun d hmem => hd d (List.mem_append_left _ hmem)
    have hdElse : ∀ d ∈ Statement.declarationsAll elseBody, R.Starts d :=
      fun d hmem => hd d (List.mem_append_right _ hmem)
    -- Both bodies start in the scopes of the statement itself.
    have hΓ₁ : c₃.scopes.Orderly k := hs₁ ▸ hΓ
    obtain ⟨c₅, h₉, rfl⟩ := of_inBlock_eq_ok h₇
    obtain ⟨hs₂, hthen⟩ :=
      (statements_pass thenBody hdThen hΓ₁.push h₉).inBlock hΓ₁.located.rooted.size_pos
    have hΓ₂ : c₅.scopes.pop.Orderly k := hs₂ ▸ hΓ₁
    obtain ⟨c₆, h₁₀, rfl⟩ := of_inBlock_eq_ok h₈
    obtain ⟨hs₃, helse⟩ :=
      (statements_pass elseBody hdElse hΓ₂.push h₁₀).inBlock hΓ₂.located.rooted.size_pos
    rw [Statement.ids]
    refine ((hcondition.seq hthen).seq helse).imp ?_
    intro hall
    obtain ⟨⟨hc, ht, hfixes⟩, he, hfixes'⟩ := hall
    -- Behind each block the scopes are those of the statement again.
    simp only [hs₃, hs₂, hs₁] at ht he ⊢
    rw [expression_expected h₁] at hfixes
    exact ⟨.ifElse hc haccepts ht he, hfixes.append hfixes'⟩
  | .forIn name iterable body, c, c', k, hd, hΓ, h => by
    rw [statement] at h
    obtain ⟨ty, c₁, h₁, h₂⟩ := exists_of_bind_eq_ok h
    obtain ⟨hs₁, hiterable⟩ := expression_pass iterable hΓ h₁
    obtain ⟨_, c₂, h₃, h₄⟩ := exists_of_bind_eq_ok h₂
    obtain ⟨haccepts, rfl⟩ := of_require_eq_ok h₃
    obtain ⟨_, c₃, h₅, h₆⟩ := exists_of_bind_eq_ok h₄
    obtain ⟨_, rfl⟩ := of_ensure_eq_ok h₅
    have hΓ₁ : c₃.scopes.Orderly k := hs₁ ▸ hΓ
    obtain ⟨c₄, h₇, rfl⟩ := of_inBlock_eq_ok h₆
    obtain ⟨_, c₅, h₈, h₉⟩ := exists_of_bind_eq_ok h₇
    obtain ⟨Γ, hdefine, rfl⟩ := of_changeScopes_eq_ok h₈
    have hΓ₂ : Γ.Orderly (k + 1) := hΓ₁.push.sameShape (Grows.of_defineVariable hdefine).shape
    rw [Statement.declarations] at hd
    -- The loop variable and the body share one block.
    have hbody := (Pass.define hdefine).seq (statements_pass body hd hΓ₂ h₉)
    obtain ⟨hs₂, hblock⟩ := hbody.inBlock hΓ₁.located.rooted.size_pos
    rw [Statement.ids]
    refine (hiterable.seq hblock).imp ?_
    intro hall
    obtain ⟨hi, _, hb, hfixes⟩ := hall
    simp only [hs₂, hs₁] at hdefine ⊢
    rw [expression_expected h₁] at hfixes
    exact ⟨.forIn hi haccepts hdefine hb, hfixes⟩
  | .whileDo condition body, c, c', k, hd, hΓ, h => by
    rw [statement] at h
    obtain ⟨ty, c₁, h₁, h₂⟩ := exists_of_bind_eq_ok h
    obtain ⟨hs₁, hcondition⟩ := expression_pass condition hΓ h₁
    obtain ⟨_, c₂, h₃, h₄⟩ := exists_of_bind_eq_ok h₂
    obtain ⟨haccepts, rfl⟩ := of_require_eq_ok h₃
    obtain ⟨_, c₃, h₅, h₆⟩ := exists_of_bind_eq_ok h₄
    obtain ⟨_, rfl⟩ := of_ensure_eq_ok h₅
    -- The body of a `WHILE` is a block of the scopes in which the condition is checked.
    have hΓ₁ : c₃.scopes.Orderly k := hs₁ ▸ hΓ
    obtain ⟨c₄, h₇, rfl⟩ := of_inBlock_eq_ok h₆
    rw [Statement.declarations] at hd
    obtain ⟨hs₂, hbody⟩ :=
      (statements_pass body hd hΓ₁.push h₇).inBlock hΓ₁.located.rooted.size_pos
    rw [Statement.ids]
    refine (hcondition.seq hbody).imp ?_
    intro hall
    obtain ⟨hc, hb, hfixes⟩ := hall
    simp only [hs₂, hs₁] at hb ⊢
    rw [expression_expected h₁] at hfixes
    exact ⟨.whileDo hc haccepts hb, hfixes⟩
  | .returns value, c, c', k, hd, hΓ, h => by
    rw [statement] at h
    obtain ⟨ty, c₁, h₁, h₂⟩ := exists_of_bind_eq_ok h
    obtain ⟨hs₁, hvalue⟩ := expression_pass value hΓ h₁
    obtain ⟨hs₂, hreturned, hexpected⟩ := returned_pass h₂
    rw [hs₂, hs₁]
    refine (hvalue.seq_nil hreturned).imp fun ⟨hv, hr⟩ => ⟨.returns hv hr, ?_⟩
    rw [expression_expected h₁] at hexpected
    -- Either the type to return was known, or this value has fixed it.
    obtain ⟨known, hbefore, hafter⟩ | ⟨hbefore, hafter⟩ := hexpected
    · rw [hbefore, hafter]
      exact rfl
    · rw [hbefore, hafter]
      exact ⟨ty, rfl, hv.noted⟩

/-- Accepted statements are well typed. -/
private theorem statements_pass : ∀ (body : List Statement) {c c' : Checker} {k : Nat},
    (∀ d ∈ Statement.declarationsAll body, R.Starts d) → c.scopes.Orderly k →
    statements R.registry body c = .ok () c' →
    Pass R returns (Statement.idsAll body) c c'
      (StatementsTyped R returns c.scopes body c'.scopes ∧
        R.Fixes (Statement.returnedAll body) c.expected c'.expected)
  | [], c, c', k, hd, hΓ, h => by
    rw [statements] at h
    cases h
    exact .refl ⟨.nil, .of_eq rfl⟩
  | s :: rest, c, c', k, hd, hΓ, h => by
    rw [statements] at h
    rw [Statement.declarationsAll] at hd
    -- The rest is checked in the scopes that the first statement leaves, which have its shape.
    obtain ⟨_, c₁, h₁, h₂⟩ := exists_of_bind_eq_ok h
    have hs := statement_pass s (fun d hmem => hd d (List.mem_append_left _ hmem)) hΓ h₁
    have hrest := statements_pass rest (fun d hmem => hd d (List.mem_append_right _ hmem))
      (hΓ.sameShape hs.grows.shape) h₂
    rw [Statement.idsAll]
    exact (hs.seq hrest).imp fun ⟨⟨h₃, hfixes⟩, h₄, hfixes'⟩ =>
      ⟨.cons h₃ h₄, hfixes.append hfixes'⟩

end

end Statements

/-! ## Programs -/

end Check

/-- The pass has gone through the nodes `ids` at the top of a program, from `c` to `c'`, and
    establishes `P` if the table is settled. -/
structure TopPass (R : Rules) (ids : List NodeId) (c c' : Checker) (P : Prop) : Prop where
  orderly : c'.scopes.Orderly 0
  touched : Touched ids c.analysis c'.analysis
  proves : R.Settled ids c'.analysis → P

namespace TopPass

variable {R : Rules} {l l' : List NodeId} {c c' c'' : Checker} {P P' : Prop}

/-- A weaker conclusion may be drawn from a step at the top. -/
theorem imp (h : TopPass R l c c' P) (hP : P → P') : TopPass R l c c' P' :=
  { h with proves := fun hs => hP (h.proves hs) }

theorem seq (h : TopPass R l c c' P) (h' : TopPass R l' c' c'' P') :
    TopPass R (l ++ l') c c'' (P ∧ P') where
  orderly := h'.orderly
  touched := h.touched.append h'.touched
  proves := fun hs => ⟨h.proves (hs.left h'.touched), h'.proves hs.right⟩

end TopPass

namespace Check

section Programs

variable {R : Rules} {c c' : Checker}

/-- What a resolved annotation comes to where it may be left out. -/
private theorem annotates_getD {r : Registry} {typeName : Option String} {declared : Option Ty}
    (h : typeName = none ∧ declared = none ∨ ∃ name ty, typeName = some name ∧
      r.resolve? name = some ty ∧ declared = some ty) (otherwise : Ty) :
    r.Annotates otherwise typeName (declared.getD otherwise) := by
  obtain ⟨rfl, rfl⟩ | ⟨name, ty, rfl, hresolve, rfl⟩ := h
  · exact rfl
  · exact hresolve

/-- A method starts with the type that it declares, so it returns what it has to. -/
private theorem returns_of_fixes {m : Method} {declared expected : Option Ty}
    (h : R.Fixes (Statement.returnedAll m.body) declared expected)
    (hdeclared : m.returnTypeName = none ∧ declared = none ∨
      ∃ name ty, m.returnTypeName = some name ∧ R.registry.resolve? name = some ty ∧
        declared = some ty) : R.Returns m (expected.getD .nil) := by
  unfold Rules.Returns
  -- Without an annotation the first value that is returned decides, and `Nil` stands in for none.
  obtain ⟨hname, rfl⟩ | ⟨name, ty, hname, hresolve, rfl⟩ := hdeclared
  · rw [hname]
    cases hvalues : Statement.returnedAll m.body with
    | nil =>
      rw [hvalues] at h
      obtain rfl : expected = none := h
      rfl
    | cons value rest =>
      rw [hvalues] at h
      obtain ⟨ty, rfl, hty⟩ := h
      exact hty
  · obtain rfl : expected = some ty := h
    rw [hname]
    exact hresolve

/-- The types of parameters are read off their annotations, one by one. -/
private theorem of_parameterTypes_eq_ok {r : Registry} :
    ∀ {parameters : List Parameter} {c c' : Checker}
    {types : List Ty}, parameterTypes r parameters c = .ok types c' →
    c' = c ∧ List.Forall₂ (fun p => r.Annotates .any p.typeName) parameters types
  | [], c, c', types, h => by
    cases h
    exact ⟨rfl, .nil⟩
  | p :: rest, c, c', types, h => by
    rw [parameterTypes] at h
    obtain ⟨ty, c₁, h₁, h₂⟩ := exists_of_bind_eq_ok h
    -- Resolving names changes nothing in the checker.
    obtain ⟨rfl, hty⟩ := of_resolve_eq_ok h₁
    obtain ⟨types', c₂, h₃, h₄⟩ := exists_of_bind_eq_ok h₂
    obtain ⟨rfl, hrest⟩ := of_parameterTypes_eq_ok h₃
    cases h₄
    exact ⟨rfl, .cons (annotates_getD hty .any) hrest⟩

/-- Parameters are defined as variables of their types. -/
private theorem defineParameters_pass {returns : Ty} :
    ∀ {parameters : List Parameter} {types : List Ty}
    {c c' : Checker}, parameters.length = types.length →
    defineParameters parameters types c = .ok () c' →
    Pass R returns [] c c' (ParametersTyped c.scopes parameters types c'.scopes)
  | [], [], c, c', _, h => by
    -- There are as many types as parameters, so the lists end together.
    rw [defineParameters] at h
    · cases h
      exact .refl .nil
    · exact fun _ _ _ _ h _ => nomatch h
  | [], _ :: _, _, _, hlength, _ => by simp at hlength
  | _ :: _, [], _, _, hlength, _ => by simp at hlength
  | p :: ps, ty :: types, c, c', hlength, h => by
    rw [defineParameters] at h
    obtain ⟨_, c₁, h₁, h₂⟩ := exists_of_bind_eq_ok h
    obtain ⟨Γ, hdefine, rfl⟩ := of_changeScopes_eq_ok h₁
    have hrest : Pass R returns [] _ c' _ := defineParameters_pass (Nat.succ.inj hlength) h₂
    exact ((Pass.define hdefine).seq hrest).imp fun ⟨_, hps⟩ => .cons hdefine hps

/-- What checking a method comes to, step by step. -/
private theorem of_method_eq_ok {r : Registry} {m : Method} (h : method r m c = .ok () c') :
    ∃ parameters declared Γ₁ c₁,
      List.Forall₂ (fun p => r.Annotates .any p.typeName) m.parameters parameters ∧
      (m.returnTypeName = none ∧ declared = none ∨ ∃ name ty, m.returnTypeName = some name ∧
        r.resolve? name = some ty ∧ declared = some ty) ∧
      c.scopes.defineFunction m.name parameters.length
        ⟨m.name, ⟨parameters, Option.getD declared .any⟩⟩ = .ok Γ₁ ∧
      inBlock (do defineParameters m.parameters parameters; statements r m.body)
        { c with scopes := Γ₁, expected := declared } = .ok () c₁ ∧
      recordFunction m.id ⟨m.name, ⟨parameters, c₁.expected.getD .nil⟩⟩
        { c₁ with
          scopes := c₁.scopes.redefineFunction m.name parameters.length
            ⟨m.name, ⟨parameters, c₁.expected.getD .nil⟩⟩ } = .ok () c' := by
  unfold method at h
  -- The method is bound twice: before its body, for recursive calls, and with the type that the
  -- body has fixed.
  obtain ⟨parameters, c₁, h₁, h₂⟩ := exists_of_bind_eq_ok h
  obtain ⟨rfl, hparameters⟩ := of_parameterTypes_eq_ok h₁
  obtain ⟨declared, c₂, h₃, h₄⟩ := exists_of_bind_eq_ok h₂
  obtain ⟨rfl, hdeclared⟩ := of_resolve_eq_ok h₃
  obtain ⟨_, c₃, h₅, h₆⟩ := exists_of_bind_eq_ok h₄
  obtain ⟨Γ₁, hdefine, rfl⟩ := of_changeScopes_eq_ok h₅
  obtain ⟨_, c₄, h₇, h₈⟩ := exists_of_bind_eq_ok h₆
  cases h₇
  obtain ⟨_, c₅, h₉, h₁₀⟩ := exists_of_bind_eq_ok h₈
  exact ⟨parameters, declared, Γ₁, c₅, hparameters, hdeclared, hdefine, h₉, h₁₀⟩

/-- The body of an accepted method is well typed. -/
private theorem body_pass (returns : Ty) {m : Method} {parameters : List Ty}
    (hd : ∀ d ∈ Statement.declarationsAll m.body, R.Starts d) (hΓ : c.scopes.Orderly 0)
    (hlength : m.parameters.length = parameters.length)
    (h : inBlock (do defineParameters m.parameters parameters; statements R.registry m.body) c =
      .ok () c') :
    c'.scopes = c.scopes ∧ Pass R returns (Statement.idsAll m.body) c c'
      ((∃ Γ₂ Γ₃, ParametersTyped c.scopes.push m.parameters parameters Γ₂ ∧
        StatementsTyped R returns Γ₂ m.body Γ₃) ∧
        R.Fixes (Statement.returnedAll m.body) c.expected c'.expected) := by
  obtain ⟨c₁, h₁, rfl⟩ := of_inBlock_eq_ok h
  obtain ⟨_, c₂, h₂, h₃⟩ := exists_of_bind_eq_ok h₁
  have hps : Pass R returns [] _ c₂ _ := defineParameters_pass hlength h₂
  have hbody : Pass R returns _ c₂ c₁ _ :=
    statements_pass m.body hd (hΓ.push.sameShape hps.grows.shape) h₃
  -- Parameters and body stand in one block, which is left with the scopes that it found.
  obtain ⟨hpop, hblock⟩ := (hps.seq hbody).inBlock hΓ.located.rooted.size_pos
  rw [defineParameters_expected h₂] at hblock
  exact ⟨hpop, hblock.imp fun ⟨hp, hb, hfixes⟩ => ⟨⟨_, _, hp, hb⟩, hfixes⟩⟩

/-- An accepted method is well typed, with the signature that its record has. -/
theorem method_pass {m : Method} (hd : ∀ d ∈ Statement.declarationsAll m.body, R.Starts d)
    (hΓ : c.scopes.Orderly 0) (h : method R.registry m c = .ok () c') :
    TopPass R m.ids c c' (∃ signature, MethodTyped R c.scopes m signature c'.scopes) := by
  obtain ⟨parameters, declared, Γ₁, c₁, hannotated, hdeclared, hdefine, hrun, hrecord⟩ :=
    of_method_eq_ok h
  have hΓ₁ : Γ₁.Orderly 0 := by
    obtain ⟨_, rfl⟩ := defineFunction_eq_ok_iff.mp hdefine
    exact hΓ.redefineFunction m.name ⟨m.name, ⟨parameters, declared.getD .any⟩⟩
  -- The type to return is known when the body has been gone through.
  let returns := c₁.expected.getD .nil
  obtain ⟨hscopes, hbody⟩ := body_pass returns hd hΓ₁ hannotated.length_eq hrun
  have hscopes : c₁.scopes = Γ₁ := hscopes
  obtain ⟨hs, hnote⟩ : c'.scopes = _ ∧ Pass R returns [m.id] _ c' _ := recordFunction_pass hrecord
  -- Calls within the body see the annotation or `Any`, and both take what is returned.
  have hprovisional : (declared.getD .any).accepts returns = true := by
    cases declared with
    | none => simp [Ty.accepts]
    | some ty =>
      have hexpected : c₁.expected = some ty := hbody.expected ty rfl
      simp only [returns, hexpected, Option.getD_some]
      exact Ty.accepts_self ty
  refine ⟨?_, hbody.touched.append hnote.touched, fun hsettled => ?_⟩
  · rw [hs, hscopes]
    exact hΓ₁.redefineFunction m.name ⟨m.name, ⟨parameters, returns⟩⟩
  · have hknown : ∀ ty, c₁.expected = some ty → ty = returns := by
      intro ty hty
      simp only [returns, hty, Option.getD_some]
    have hknown' : ∀ ty, c'.expected = some ty → ty = returns := by
      cases hrecord
      exact hknown
    obtain ⟨⟨Γ₂, Γ₃, hp, hb⟩, hfixes⟩ := hbody.proves hknown (hsettled.left hnote.touched)
    rw [hs, hscopes]
    exact ⟨_, .intro hannotated (annotates_getD hdeclared .any) (returns_of_fixes hfixes hdeclared)
      hdefine hprovisional hp hb (hnote.proves hknown' hsettled.right)⟩

/-- Methods are checked in order, each in the scopes that the ones before it have left. -/
theorem methods_pass : ∀ {methods : List Method} {c c' : Checker},
    (∀ m ∈ methods, ∀ d ∈ Statement.declarationsAll m.body, R.Starts d) →
    c.scopes.Orderly 0 → methods.forM (method R.registry) c = .ok () c' →
    TopPass R (methods.flatMap Method.ids) c c' (MethodsTyped R c.scopes methods c'.scopes)
  | [], c, c', _, hΓ, h => by
    cases h
    exact ⟨hΓ, .refl _, fun _ => .nil⟩
  | m :: rest, c, c', hd, hΓ, h => by
    obtain ⟨_, c₁, h₁, h₂⟩ := exists_of_bind_eq_ok h
    have hm := method_pass (hd m List.mem_cons_self) hΓ h₁
    have hrest := methods_pass (fun m' hm' => hd m' (List.mem_cons_of_mem m hm')) hm.orderly h₂
    rw [List.flatMap_cons]
    exact (hm.seq hrest).imp fun ⟨⟨_, h₃⟩, h₄⟩ => .cons h₃ h₄

/-- The fields of a program are declarations in a row. -/
theorem fields_pass : ∀ {fields : List Declaration} {c c' : Checker},
    (∀ d ∈ fields, R.Starts d) → c.scopes.Orderly 0 →
    fields.forM (declaration R.registry) c = .ok () c' →
    TopPass R (fields.flatMap Declaration.ids) c c' (FieldsTyped R c.scopes fields c'.scopes)
  | [], c, c', _, hΓ, h => by
    cases h
    exact ⟨hΓ, .refl _, fun _ => .nil⟩
  | d :: rest, c, c', hd, hΓ, h => by
    obtain ⟨_, c₁, h₁, h₂⟩ := exists_of_bind_eq_ok h
    -- Nothing is returned outside of methods, so any type to return will do.
    have hpass : Pass R (c₁.expected.getD .nil) d.ids c c₁ _ :=
      declaration_pass (hd d List.mem_cons_self) hΓ h₁
    have hd₁ : TopPass R d.ids c c₁ (DeclarationTyped R c.scopes d c₁.scopes) := by
      refine ⟨hΓ.sameShape hpass.grows.shape, hpass.touched, hpass.proves fun ty hty => ?_⟩
      rw [hty, Option.getD_some]
    have hrest := fields_pass (fun d' hd' => hd d' (List.mem_cons_of_mem d hd')) hd₁.orderly h₂
    rw [List.flatMap_cons]
    exact (hd₁.seq hrest).imp fun ⟨h₃, h₄⟩ => .cons h₃ h₄

/-- Natives are bound in order, each under a name and arity that is free. -/
theorem natives_pass : ∀ {natives : List Native} {c c' : Checker}, c.scopes.Orderly 0 →
    Check.natives natives c = .ok () c' →
    TopPass R [] c c' (NativesTyped c.scopes natives c'.scopes)
  | [], c, c', hΓ, h => by
    cases h
    exact ⟨hΓ, .refl _, fun _ => .nil⟩
  | native :: rest, c, c', hΓ, h => by
    obtain ⟨_, c₁, h₁, h₂⟩ := exists_of_bind_eq_ok h
    obtain ⟨Γ, hdefine, rfl⟩ := of_changeScopes_eq_ok h₁
    -- A native is bound in the global frame under a free name.
    have hΓ₁ : Γ.Orderly 0 := by
      obtain ⟨_, rfl⟩ := defineFunction_eq_ok_iff.mp hdefine
      exact hΓ.redefineFunction native.name ⟨native.name, native.signature⟩
    have hrest : TopPass R [] _ c' _ := natives_pass hΓ₁ h₂
    exact ⟨hrest.orderly, hrest.touched, fun hs => .cons hdefine (hrest.proves hs)⟩

end Programs

end Check

/-- What analyzing a program comes to, step by step. -/
theorem of_analyze_eq_ok {r : Registry} {s : Source} {a : Analysis} (h : analyze r s = .ok a) :
    ∃ c₁ c₂ c₃ binding, Check.natives r.functions ⟨.new, .empty, none⟩ = .ok () c₁ ∧
      s.fields.forM (Check.declaration r) c₁ = .ok () c₂ ∧
      s.methods.forM (Check.method r) c₂ = .ok () c₃ ∧ c₃.analysis = a ∧
      c₃.scopes.function? "main" 0 = some binding ∧
      Ty.integer.accepts binding.signature.returns = true := by
  unfold analyze at h
  cases hrun : Check.source r s ⟨.new, .empty, none⟩ with
  | error e c => rw [hrun] at h; exact nomatch h
  | ok _ c' =>
    rw [hrun] at h
    cases h
    unfold Check.source at hrun
    -- Natives, globals and methods are checked in this order, and then `main` is looked for.
    obtain ⟨_, c₁, h₁, h₂⟩ := exists_of_bind_eq_ok hrun
    obtain ⟨_, c₂, h₃, h₄⟩ := exists_of_bind_eq_ok h₂
    obtain ⟨_, c₃, h₅, h₆⟩ := exists_of_bind_eq_ok h₄
    obtain ⟨_, _, hget, h₇⟩ := exists_of_bind_eq_ok h₆
    cases hget
    cases hmain : c₃.scopes.function? "main" 0 with
    | none => simp only [hmain] at h₇; exact nomatch h₇
    | some binding =>
      simp only [hmain] at h₇
      obtain ⟨haccepts, rfl⟩ := Check.of_require_eq_ok h₇
      exact ⟨c₁, c₂, _, binding, h₁, h₃, h₅, rfl, hmain, haccepts⟩

/-- A program that the analysis accepts is well typed, by any rules that take notice of the
    side table where it is final. -/
theorem analyze_typed {R : Rules} {s : Source} {a : Analysis} (h : analyze R.registry s = .ok a)
    (hsettled : R.Settled s.ids a) (hd : ∀ d ∈ s.declarations, R.Starts d) : SourceTyped R s := by
  obtain ⟨c₁, c₂, c₃, binding, h₁, h₂, h₃, rfl, hmain, haccepts⟩ := of_analyze_eq_ok h
  have hdFields : ∀ d ∈ s.fields, R.Starts d :=
    fun d hmem => hd d (List.mem_append_left _ hmem)
  have hdMethods : ∀ m ∈ s.methods, ∀ d ∈ Statement.declarationsAll m.body, R.Starts d :=
    fun m hm d hmem => hd d (List.mem_append_right _ (List.mem_flatMap.mpr ⟨m, hm, hmem⟩))
  have hnatives : TopPass R [] _ c₁ _ := Check.natives_pass Scopes.Orderly.new h₁
  have hfields := Check.fields_pass hdFields hnatives.orderly h₂
  have hmethods := Check.methods_pass hdMethods hfields.orderly h₃
  obtain ⟨hn, hf, hm⟩ := (hnatives.seq (hfields.seq hmethods)).proves hsettled
  -- `main` is looked up without arguments, so it has no parameters.
  have harity := hmethods.orderly.function hmain
  exact .intro hn hf hm hmain (List.length_eq_zero_iff.mp harity) haccepts

end LetLang
