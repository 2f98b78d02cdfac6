import Mathlib.Data.List.Forall2
import LetLang.Proofs.Restoration
import LetLang.Proofs.Typing

/-! # Running states that agree with the scopes of the analysis

A `Meaning` says which values a type has.  It is left open here, and the laws in
`Meaning.Lawful` are all that is known of it: what the operators, the natives and the fields
of objects have to respect.

`Agrees R M P Γ b k m` relates the scopes `Γ` of the analysis to a state `m` in which the
visible frames start at `b`.  Frame by frame the same names are defined, and their values have
the types of their bindings; every function that the analysis knows is there and meets its
signature.  The lemmas say how the relation is kept

* `Agrees.read`, `Agrees.store`   when a variable is read or written
* `Agrees.define`                 when both sides define a variable
* `Agrees.push`, `Agrees.pop`     when both sides enter or leave a block
* `Agrees.call`, `Agrees.keep`    when only the running program enters or leaves a call
-/

namespace LetLang

open Scopes

/-! ## Meanings -/

/-- What types stand for at run time. -/
structure Meaning where
  /-- Whether a value has a type, given the objects that there are. -/
  has : World → Value → Ty → Prop
  /-- What holds of the objects and the output at any time. -/
  valid : World → Prop
  /-- How objects and output can change. -/
  later : World → World → Prop
  /-- The errors with which a run may stop. -/
  allowed : RuntimeError → Prop

namespace Meaning

/-- The native gives a value of the type, or an error that is allowed. -/
def Gives (M : Meaning) (x : NativeM Value) (w : World) (ty : Ty) : Prop :=
  Ends x w (fun v w' => M.has w' v ty ∧ M.valid w' ∧ M.later w w') (fun e _ => M.allowed e)

/-- A run may stop so; having used up its rounds is no error. -/
def Allows (M : Meaning) : Halt → Prop
  | .error e => M.allowed e
  | .exhausted => True

/-- What a meaning has to respect.  Members are only ever looked up in types that are noted for
    an expression. -/
structure Lawful (M : Meaning) (R : Rules) : Prop where
  later_refl : ∀ w, M.later w w
  later_trans : ∀ {w w' w''}, M.later w w' → M.later w' w'' → M.later w w''
  has_later : ∀ {w w' v ty}, M.later w w' → M.has w v ty → M.has w' v ty
  accepts : ∀ {w v target actual}, target.accepts actual → M.has w v actual → M.has w v target
  literal : ∀ {w value ty}, Literal.type value = .ok ty → M.has w value.toValue ty
  integer : ∀ {w n}, M.has w (.integer n) .integer
  boolean : ∀ {w b}, M.has w (.boolean b) .boolean
  toBool : ∀ {w v e}, M.has w v .boolean → v.toBool = .error e → M.allowed e
  elements : ∀ {w v}, M.has w v .integerIterable → v.elements? = none →
    M.allowed (.notIterable v.typeName)
  binary : ∀ {w a b left right operator ty}, M.has w a left → M.has w b right →
    Operator.type operator left right = .ok ty → operator.level ≠ .logical →
    match Value.binary operator a b with
    | .ok v => M.has w v ty
    | .error e => M.allowed e
  native : ∀ {w native values}, native ∈ R.registry.functions → M.valid w →
    List.Forall₂ (M.has w) values native.signature.parameters →
    M.Gives (native.call values) w native.signature.returns
  readField : ∀ {w v id ty name fieldType}, R.type id ty → M.has w v ty →
    ty.field? R.registry.objects name = some fieldType → M.valid w →
    M.Gives (NativeM.readField v name) w fieldType
  writeField : ∀ {w v id ty name fieldType u}, R.type id ty → M.has w v ty →
    ty.field? R.registry.objects name = some fieldType → M.valid w → M.has w u fieldType →
    Ends (NativeM.writeField v name u) w (fun _ w' => M.valid w' ∧ M.later w w')
      (fun e _ => M.allowed e)
  method : ∀ {w v id ty name arity native}, R.type id ty → M.has w v ty →
    ty.method? R.registry.objects name arity = some native →
    match v.method R.registry.objects name arity with
    | .error e => M.allowed e
    | .ok found => ∀ w' values, M.later w w' → M.valid w' →
      List.Forall₂ (M.has w') values native.signature.parameters.tail →
      M.Gives (found.call (v :: values)) w' native.signature.returns
  depth : ∀ {name}, M.allowed (.callDepthExceeded name)
  result : ∀ {w v}, M.has w v .integer → (∀ n, v ≠ .integer n) →
    M.allowed (.nonIntegerResult v.typeName)

end Meaning

/-! ## Programs -/

/-- The last statement of the method is a `RETURN`. -/
def Method.EndsInReturn (m : Method) : Prop :=
  ∃ value, m.body.getLast? = some (.returns value)

/-- What a running program has in its global frame. -/
structure Program where
  /-- The global variables, as the analysis knows them. -/
  vars : String → Option VariableBinding
  /-- The functions, as they are bound when the program runs. -/
  functions : FunctionKey → Option Callable
  /-- The methods that have been checked, with their signatures. -/
  checked : Method → Signature → Prop

namespace Program

/-- The function gives what the signature promises. -/
def Meets (P : Program) (R : Rules) (signature : Signature) : Callable → Prop
  | .native native => native ∈ R.registry.functions ∧ native.signature = signature
  | .method method =>
    ∃ returns, P.checked method ⟨signature.parameters, returns⟩ ∧ signature.returns.accepts returns

/-- The scopes of the analysis, inside `k` frames, have the global variables of the program,
    and all their functions are functions of the program. -/
structure Knows (P : Program) (R : Rules) (k : Nat) (Γ : StaticScopes) : Prop where
  located : Located 1 k Γ
  vars : ∀ name, Γ.found (·.vars.get? name) 0 = P.vars name
  functions : ∀ key binding, Γ.found (·.functions.get? key) 0 = some binding →
    ∃ callable, P.functions key = some callable ∧ P.Meets R binding.signature callable

/-- The body of the method is well typed in scopes that the program bears out.  If its end can
    be reached without a `RETURN`, then `NIL` has the type to return. -/
structure Justifies (P : Program) (R : Rules) (M : Meaning) (m : Method) (signature : Signature) :
    Prop where
  body : ∃ Γ₁ Γ₂ Γ₃, P.Knows R 0 Γ₁ ∧
    ParametersTyped Γ₁.push m.parameters signature.parameters Γ₂ ∧
    StatementsTyped R signature.returns Γ₂ m.body Γ₃
  fallsOff : m.EndsInReturn ∨ ∀ w, M.has w .nil signature.returns

/-- All methods that count as checked are justified. -/
def Justified (P : Program) (R : Rules) (M : Meaning) : Prop :=
  ∀ m signature, P.checked m signature → P.Justifies R M m signature

/-- A function that the analysis knows is bound to something that meets its signature. -/
theorem Knows.function {P : Program} {R : Rules} {k : Nat} {Γ : StaticScopes} (h : P.Knows R k Γ)
    {name : String} {arity : Nat} {binding : FunctionBinding}
    (hf : Γ.function? name arity = some binding) :
    ∃ callable, P.functions (name, arity) = some callable ∧
      P.Meets R binding.signature callable := by
  rw [function?_eq h.located] at hf
  exact h.functions (name, arity) binding hf

/-- A block has no functions of its own. -/
theorem Knows.push {P : Program} {R : Rules} {k : Nat} {Γ : StaticScopes} (h : P.Knows R k Γ) :
    P.Knows R (k + 1) Γ.push := by
  have hpos := h.located.rooted.size_pos
  refine ⟨h.located.push, fun name => ?_, fun key binding hf => ?_⟩
  · exact (found_pushChildOf_lt Γ _ _ hpos).trans (h.vars name)
  · exact h.functions key binding ((found_pushChildOf_lt Γ _ _ hpos).symm.trans hf)

end Program

/-! ## Agreement -/

/-- A place holds a value of the type of the binding, or neither is there. -/
def Meaning.Holds (M : Meaning) (w : World) (binding : Option VariableBinding)
    (v : Option Value) : Prop :=
  Option.Rel (fun binding v => M.has w v binding.ty) binding v

namespace Meaning.Holds

variable {M : Meaning} {R : Rules} {w w' : World} {v : Option Value}

/-- A variable that is known has a value of its type. -/
private theorem exists_of_some {binding : VariableBinding} (h : M.Holds w (some binding) v) :
    ∃ u, v = some u ∧ M.has w u binding.ty := by
  cases h with
  | some hu => exact ⟨_, rfl, hu⟩

/-- A variable that is not known has none. -/
theorem eq_none (h : M.Holds w none v) : v = none := by
  cases h
  rfl

/-- Values keep their types while the world goes on. -/
theorem later (hM : M.Lawful R) (hw : M.later w w') {binding : Option VariableBinding}
    (h : M.Holds w binding v) : M.Holds w' binding v := by
  cases h with
  | some hu => exact .some (hM.has_later hw hu)
  | none => exact .none

end Meaning.Holds

/-- The global frame of the state holds what the program has in it. -/
structure Machine.Globals (M : Meaning) (P : Program) (m : Machine) : Prop where
  rooted : m.scopes.Rooted
  vars : ∀ name,
    M.Holds m.world (P.vars name) (m.scopes.found (·.vars.get? name) 0)
  functions : ∀ key, m.scopes.found (·.functions.get? key) 0 = P.functions key
  valid : M.valid m.world

namespace Machine.Globals

variable {M : Meaning} {P : Program} {m m' : Machine}

/-- Entering a frame leaves the global one alone. -/
theorem enter (h : m.Globals M P) {parent : FrameId}
    (hs : m'.scopes = m.scopes.pushChildOf parent) (hw : m'.world = m.world) :
    m'.Globals M P := by
  have hpos := h.rooted.size_pos
  obtain ⟨f, hf, hp⟩ := h.rooted
  constructor
  · rw [hs]
    exact ⟨f, (pushChildOf_frame_lt _ _ hpos).trans hf, hp⟩
  · intro name
    -- The global frame is below the new one.
    rw [hs, hw, found_pushChildOf_lt _ _ _ hpos]
    exact h.vars name
  · intro key
    rw [hs, found_pushChildOf_lt _ _ _ hpos]
    exact h.functions key
  · rw [hw]
    exact h.valid

/-- Leaving a frame leaves the global one alone. -/
theorem leave (h : m'.Globals M P) {s : Scopes Value Callable} {parent : FrameId}
    (hs : SameShape (s.pushChildOf parent) m'.scopes) (hroot : s.Rooted) (calls : Nat) :
    Machine.Globals M P { m' with scopes := m'.scopes.pop, calls := calls } := by
  have hpos := hroot.size_pos
  refine ⟨(hs.pop hpos).rooted hroot, fun name => ?_, fun key => ?_, h.valid⟩
  · show M.Holds m'.world _ (m'.scopes.pop.found _ 0)
    rw [found_pop_of_sameShape_push hs hpos _ hpos]
    exact h.vars name
  · show m'.scopes.pop.found _ 0 = _
    rw [found_pop_of_sameShape_push hs hpos _ hpos]
    exact h.functions key

end Machine.Globals

/-- The state has what the scopes of the analysis know, in the frames from `b` on. -/
structure Agrees (R : Rules) (M : Meaning) (P : Program) (Γ : StaticScopes) (b k : Nat)
    (m : Machine) : Prop where
  knows : P.Knows R k Γ
  located : Located b k m.scopes
  globals : m.Globals M P
  locals : ∀ j < k, ∀ name,
    M.Holds m.world (Γ.found (·.vars.get? name) (1 + j)) (m.scopes.found (·.vars.get? name) (b + j))

namespace Agrees

variable {R : Rules} {M : Meaning} {P : Program} {Γ Γ' : StaticScopes} {b k : Nat}
  {m m' : Machine}

/-- The frames agree one by one. -/
theorem holds (h : Agrees R M P Γ b k m) {j : Nat} (hj : j ≤ k) (name : String) :
    M.Holds m.world (Γ.found (·.vars.get? name) (place 1 j))
      (m.scopes.found (·.vars.get? name) (place b j)) := by
  cases j with
  | zero =>
    rw [place_zero, place_zero, h.knows.vars]
    exact h.globals.vars name
  | succ j => exact h.locals j (by omega) name

/-- Both sides find a variable in the same frame. -/
theorem search (h : Agrees R M P Γ b k m) {name : String} {i : FrameId}
    {binding : VariableBinding}
    (hs : Γ.search (fun frame => frame.vars.get? name) = some (i, binding)) :
    ∃ j v, j ≤ k ∧ Γ.found (·.vars.get? name) (place 1 j) = some binding ∧
      m.scopes.search (fun frame => frame.vars.get? name) = some (place b j, v) ∧
      M.has m.world v binding.ty := by
  obtain ⟨j, hj, rfl, hfound, hinner⟩ := (search_eq_some_iff h.knows.located _ _ _).mp hs
  have hholds := h.holds hj name
  rw [hfound] at hholds
  obtain ⟨v, hv, hty⟩ := hholds.exists_of_some
  refine ⟨j, v, hj, hfound, ?_, hty⟩
  rw [search_eq_some_iff h.located]
  refine ⟨j, hj, rfl, hv, fun j' hlt hle => ?_⟩
  -- Frames further inside do not have the name on one side, so they do not on the other.
  have hnone := h.holds hle name
  rw [hinner j' hlt hle] at hnone
  exact hnone.eq_none

/-- A variable of the analysis has a value. -/
theorem read (h : Agrees R M P Γ b k m) {name : String} {binding : VariableBinding}
    (hl : Γ.lookup? name = some binding) :
    ∃ v, m.scopes.lookup? name = some v ∧ M.has m.world v binding.ty := by
  rw [lookup?, Option.map_eq_some_iff] at hl
  obtain ⟨⟨i, _⟩, hs, rfl⟩ := hl
  obtain ⟨j, v, _, _, hsearch, hv⟩ := h.search hs
  refine ⟨v, ?_, hv⟩
  rw [lookup?, hsearch, Option.map_some]

/-- A function of the analysis is bound, and meets its signature. -/
theorem function (h : Agrees R M P Γ b k m) {name : String} {arity : Nat}
    {binding : FunctionBinding} (hf : Γ.function? name arity = some binding) :
    ∃ callable, m.scopes.function? name arity = some callable ∧
      P.Meets R binding.signature callable := by
  obtain ⟨callable, hbound, hmeets⟩ := h.knows.function hf
  refine ⟨callable, ?_, hmeets⟩
  rw [function?_eq h.located, h.globals.functions, hbound]

/-- Storing a value of the right type in a frame that both sides see. -/
theorem store (h : Agrees R M P Γ b k m) {j : Nat} (hj : j ≤ k) {name : String}
    {binding : VariableBinding} {v : Value}
    (hfound : Γ.found (·.vars.get? name) (place 1 j) = some binding)
    (hv : M.has m.world v binding.ty) :
    Agrees R M P Γ b k { m with scopes := m.scopes.store (place b j) name v } := by
  obtain ⟨f, hf⟩ := h.located.frame hj
  have hshape := sameShape_store m.scopes (place b j) name v
  -- Seen from any frame, only the one place has changed, and it holds the right type.
  have hplace : ∀ j' name', M.Holds m.world (Γ.found (·.vars.get? name') (place 1 j'))
      (m.scopes.found (·.vars.get? name') (place b j')) →
      M.Holds m.world (Γ.found (·.vars.get? name') (place 1 j'))
        ((m.scopes.store (place b j) name v).found (·.vars.get? name') (place b j')) := by
    intro j' name' hholds
    rw [found_store hf]
    split
    · rename_i heq
      obtain ⟨hj', rfl⟩ := heq
      obtain rfl := (place_inj h.located.base_pos).mp hj'
      rw [hfound]
      exact .some hv
    · exact hholds
  refine ⟨h.knows, hshape.located h.located, ⟨hshape.rooted h.globals.rooted, fun name' => ?_,
    fun key => (hshape.found_function key 0).trans (h.globals.functions key), h.globals.valid⟩,
    fun j' hj' name' => ?_⟩
  · rw [← h.knows.vars]
    exact hplace 0 name' (h.holds (Nat.zero_le k) name')
  · exact hplace (j' + 1) name' (h.holds hj' name')

/-- Both sides define a variable in the current frame, which is not the global one. -/
theorem define (h : Agrees R M P Γ b (k + 1) m) {name : String} {ty : Ty} {v : Value}
    (hd : Γ.defineVariable name ⟨name, ty⟩ = .ok Γ') (hv : M.has m.world v ty) :
    ∃ scopes, m.scopes.defineVariable name v = .ok scopes ∧
      Agrees R M P Γ' b (k + 1) { m with scopes := scopes } := by
  have hb := h.located.base_pos
  obtain ⟨hnone, rfl⟩ := defineVariable_eq_ok_iff.mp hd
  rw [h.knows.located.current_eq] at hnone ⊢
  -- The frames of both sides hold the same names, so the name is free in the machine as well.
  have hholds := h.holds (Nat.le_refl (k + 1)) name
  rw [hnone] at hholds
  have hfree : m.scopes.found (·.vars.get? name) m.scopes.current = none := by
    rw [h.located.current_eq]
    exact hholds.eq_none
  refine ⟨_, defineVariable_eq_ok_iff.mpr ⟨hfree, rfl⟩, ?_⟩
  rw [h.located.current_eq]
  obtain ⟨f, hf⟩ := h.knows.located.frame (Nat.le_refl (k + 1))
  obtain ⟨f', hf'⟩ := h.located.frame (Nat.le_refl (k + 1))
  have hΓ := sameShape_store Γ (place 1 (k + 1)) name ⟨name, ty⟩
  have hm := sameShape_store m.scopes (place b (k + 1)) name v
  -- The global frames are not touched, because the current one is further inside.
  have h0 : ∀ b name', 0 < b → ¬((0 : Nat) = place b (k + 1) ∧ name' = name) := by
    intro b name' hb h
    rw [place_succ] at h
    omega
  refine ⟨⟨hΓ.located h.knows.located, fun name' => ?_, fun key binding hkey => ?_⟩,
    hm.located h.located, ⟨hm.rooted h.globals.rooted, fun name' => ?_, fun key => ?_,
      h.globals.valid⟩, fun j hj name' => ?_⟩
  · rw [found_store hf, if_neg (h0 1 name' Nat.one_pos)]
    exact h.knows.vars name'
  · exact h.knows.functions key binding ((hΓ.found_function key 0).symm.trans hkey)
  · show M.Holds m.world _ ((m.scopes.store _ _ _).found _ 0)
    rw [found_store hf', if_neg (h0 b name' hb)]
    exact h.globals.vars name'
  · exact (hm.found_function key 0).trans (h.globals.functions key)
  · show M.Holds m.world _ ((m.scopes.store _ _ _).found _ (b + j))
    rw [found_store hf, found_store hf', place_succ, place_succ]
    -- The frame is the current one on both sides or on none.
    by_cases hnew : j = k ∧ name' = name
    · obtain ⟨rfl, rfl⟩ := hnew
      rw [if_pos ⟨rfl, rfl⟩, if_pos ⟨rfl, rfl⟩]
      exact .some hv
    · rw [if_neg fun heq => hnew ⟨by omega, heq.2⟩, if_neg fun heq => hnew ⟨by omega, heq.2⟩]
      exact h.locals j hj name'

/-- Both sides enter a block. -/
theorem push (h : Agrees R M P Γ b k m) :
    Agrees R M P Γ.push b (k + 1) { m with scopes := m.scopes.push } := by
  have hΓ := h.knows.located.size_eq
  have hm := h.located.size_eq
  refine ⟨h.knows.push, h.located.push, h.globals.enter rfl rfl, fun j hj name => ?_⟩
  show M.Holds m.world (Γ.push.found _ (1 + j)) (m.scopes.push.found _ (b + j))
  -- The new frames have no variables, and the others are as they were.
  by_cases hk : j = k
  · subst hk
    rw [← hΓ, ← hm, Scopes.push, Scopes.push, found_pushChildOf_size, found_pushChildOf_size]
    exact .none
  · rw [Scopes.push, Scopes.push, found_pushChildOf_lt _ _ _ (by omega),
      found_pushChildOf_lt _ _ _ (by omega)]
    exact h.locals j (by omega) name

/-- Both sides leave a block. -/
theorem pop (h : Agrees R M P Γ b k m) (h' : Agrees R M P Γ' b (k + 1) m')
    (hΓ : Grows Γ.push Γ') (hm : SameShape m.scopes.push m'.scopes) :
    Agrees R M P Γ b k { m' with scopes := m'.scopes.pop } := by
  have hsizeΓ := h.knows.located.size_eq
  have hsize := h.located.size_eq
  have hpos := h.located.rooted.size_pos
  refine ⟨h.knows, (hm.pop hpos).located h.located,
    h'.globals.leave hm h.located.rooted m'.calls, fun j hj name => ?_⟩
  have hlocal := h'.locals j (by omega) name
  have hlt : 1 + j < Γ.frames.size := by omega
  -- The block has defined names only in its own scope.
  have hframe : Γ'.frames[1 + j]? = Γ.frames[1 + j]? := by
    rw [hΓ.others (1 + j) (Nat.ne_of_lt hlt)]
    exact pushChildOf_frame_lt Γ _ hlt
  rw [found, hframe] at hlocal
  show M.Holds m'.world _ (m'.scopes.pop.found _ (b + j))
  rw [found_pop_of_sameShape_push hm hpos _ (by omega)]
  exact hlocal

/-- The running program enters a call. -/
theorem call (hglobals : m.Globals M P) (hknows : P.Knows R 0 Γ) :
    Agrees R M P Γ.push m.scopes.frames.size 1
      { m with calls := m.calls + 1, scopes := m.scopes.pushChildOf global } := by
  have hΓ := hknows.located.size_eq
  refine ⟨hknows.push, hglobals.rooted.enterCall, hglobals.enter rfl rfl, fun j hj name => ?_⟩
  -- Method bodies are checked one frame inside the global one, and calls run there.
  obtain rfl : j = 0 := by omega
  show M.Holds m.world (Γ.push.found _ 1) ((m.scopes.pushChildOf global).found _ m.scopes.frames.size)
  rw [found_pushChildOf_size, show (1 : Nat) = Γ.frames.size from hΓ.symm, Scopes.push,
    found_pushChildOf_size]
  exact .none

/-- The running program has come back from a call, or was never away. -/
theorem keep (hM : M.Lawful R) (h : Agrees R M P Γ b k m)
    (hkeep : m.Keeps m.scopes.frames.size m') (hglobals : m'.Globals M P)
    (hlater : M.later m.world m'.world) : Agrees R M P Γ b k m' := by
  have hb := h.located.base_pos
  have hsize := h.located.size_eq
  refine ⟨h.knows, hkeep.shape.located h.located, hglobals, fun j hj name => ?_⟩
  -- A call keeps the local frames of its caller; the global one is taken care of.
  rw [found, found, hkeep.locals (b + j) (by omega) (by omega)]
  exact (h.locals j hj name).later hM hlater

/-- Only objects and output have changed. -/
theorem world (hM : M.Lawful R) (h : Agrees R M P Γ b k m) {w : World}
    (hvalid : M.valid w) (hlater : M.later m.world w) :
    Agrees R M P Γ b k { m with world := w } := by
  refine h.keep hM (.of_scopes_eq rfl rfl) ⟨h.globals.rooted, fun name => ?_,
    h.globals.functions, hvalid⟩ hlater
  exact (h.globals.vars name).later hM hlater

end Agrees

end LetLang
