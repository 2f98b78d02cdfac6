import LetLang.Proofs.LexicalScope
import LetLang.Proofs.ScopeStack
import Mathlib.Data.Int.Range

/-! # A loop is its rounds written out

A `FOR` over a range runs like the program in which its rounds are written out one after the other,
each as a block that declares the variable with its number and then goes on with the body.  The
numbers are fixed when the range is known: no round can change what the later ones run for.

What a round declares is gone when it ends.  Whatever runs gives names to the frame that was
current when it started and to no other; a block has a frame of its own, so all that it leaves
behind are other values.

## Key results

- `Exec.NamesHere`: a computation that adds names to the current frame only
- `namesHere_statements`: statements are such computations, whatever they call
- `NamesHere.inScope`: so a block leaves every frame with the names it had
- `forRounds_eq_statements`: the rounds of a loop, as statements
- `forIn_is_unrolled`: the loop as a whole, and what its rounds start with
-/

namespace LetLang

open Scopes Exec

/-! ## New names -/

/-- The second state has the shape of the first, the same number of active calls and, in all frames
    but the current one, the same names. -/
structure Machine.Gains (m m' : Machine) : Prop where
  calls : m'.calls = m.calls
  shape : SameShape m.scopes m'.scopes
  names : ∀ i, i ≠ m.scopes.current →
    m'.scopes.frames[i]?.map (·.vars.keys) = m.scopes.frames[i]?.map (·.vars.keys)

/-- The second state differs from the first only in values of variables and in the world. -/
structure Machine.SameOutline (m m' : Machine) : Prop where
  calls : m'.calls = m.calls
  current : m'.scopes.current = m.scopes.current
  outlines : m'.scopes.frames.map Frame.outline = m.scopes.frames.map Frame.outline

namespace Machine.SameOutline

variable {m m' m'' : Machine}

theorem refl (m : Machine) : m.SameOutline m := ⟨rfl, rfl, rfl⟩

theorem trans (h : m.SameOutline m') (h' : m'.SameOutline m'') : m.SameOutline m'' :=
  ⟨h'.calls.trans h.calls, h'.current.trans h.current, h'.outlines.trans h.outlines⟩

/-- Frames of one outline have the same names, functions and parents. -/
theorem frame (h : m.SameOutline m') (i : Nat) :
    m'.scopes.frames[i]?.map Frame.outline = m.scopes.frames[i]?.map Frame.outline := by
  simpa using congrArg (·[i]?) h.outlines

/-- Outlines determine the shape. -/
theorem shape (h : m.SameOutline m') : SameShape m.scopes m'.scopes where
  current := h.current
  skeletons := by
    simpa [Frame.outline, Function.comp_def] using congrArg (Array.map (·.1)) h.outlines

/-- A machine with the same outline has gained nothing. -/
private theorem gains (h : m.SameOutline m') : m.Gains m' where
  calls := h.calls
  shape := h.shape
  names := fun i _ => by
    simpa [Frame.outline, Function.comp_def] using congrArg (Option.map (·.2)) (h.frame i)

end Machine.SameOutline

namespace Machine.Gains

variable {m m' m'' : Machine}

/-- Gains add up. -/
theorem trans (h : m.Gains m') (h' : m'.Gains m'') : m.Gains m'' where
  calls := h'.calls.trans h.calls
  shape := h.shape.trans h'.shape
  names := fun i hi => (h'.names i (by rwa [h.shape.current])).trans (h.names i hi)

/-- The names that a frame has gained are gone when it is left. -/
theorem leave {parent : FrameId} (hm : 0 < m.scopes.frames.size)
    (h : Gains { m with scopes := m.scopes.pushChildOf parent } m') :
    m.SameOutline { m' with scopes := m'.scopes.pop } where
  calls := h.calls
  current := (h.shape.pop hm).current
  outlines := by
    apply Array.ext_getElem?
    intro i
    rw [Array.getElem?_map, Array.getElem?_map]
    by_cases hi : i < m.scopes.frames.size
    · have hkept := pop_frame_of_sameShape_push h.shape hm hi
      have hpushed := pushChildOf_frame_lt m.scopes parent hi
      -- The frame that was entered is another one, so this one has its old names.
      have hnames := h.names i (Nat.ne_of_lt hi)
      have hskeleton := h.shape.skeleton i
      dsimp only at hnames hskeleton ⊢
      rw [hpushed] at hnames hskeleton
      rw [hkept]
      cases hf : m.scopes.frames[i]? <;> cases hf' : m'.scopes.frames[i]? <;>
        simp_all [Frame.outline]
    · have hsize := (h.shape.pop hm).size
      dsimp only
      rw [Array.getElem?_eq_none (by omega), Array.getElem?_eq_none (by omega)]

end Machine.Gains

namespace Exec

variable {α β : Type}

/-- However the computation ends, it has added names to the current frame only. -/
def NamesHere (x : Exec α) : Prop :=
  ∀ m : Machine, 0 < m.scopes.frames.size →
    Ends x m (fun _ m' => m.Gains m') (fun _ m' => m.Gains m')

/-- What leaves the scopes alone defines nothing. -/
private theorem namesHere_of_scopes_eq {x : Exec α}
    (h : ∀ m, Ends x m (fun _ m' => m'.scopes = m.scopes ∧ m'.calls = m.calls)
      (fun _ m' => m'.scopes = m.scopes ∧ m'.calls = m.calls)) : NamesHere x := by
  intro m _
  have hgains : ∀ m' : Machine, m'.scopes = m.scopes ∧ m'.calls = m.calls → m.Gains m' := by
    intro m' heq
    exact ⟨heq.2, heq.1 ▸ .refl _, fun _ _ => by rw [heq.1]⟩
  exact (h m).imp (fun _ m' _ => hgains m') (fun _ m' _ => hgains m')

private theorem namesHere_pure (a : α) : NamesHere (pure a) :=
  namesHere_of_scopes_eq fun _ => ⟨rfl, rfl⟩

private theorem namesHere_throw (halt : Halt) : NamesHere (throw halt : Exec α) :=
  namesHere_of_scopes_eq fun _ => ⟨rfl, rfl⟩

/-- Natives see the world only. -/
private theorem namesHere_ofNative (x : NativeM α) : NamesHere (ofNative x) := by
  apply namesHere_of_scopes_eq
  intro m
  rw [ends_ofNative, Ends]
  cases x m.world <;> exact ⟨rfl, rfl⟩

/-- Sequences define names in the frame that both parts run in. -/
theorem NamesHere.bind {x : Exec α} {f : α → Exec β} (hx : NamesHere x)
    (hf : ∀ a, NamesHere (f a)) : NamesHere (x >>= f) := by
  intro m hm
  rw [ends_bind]
  refine (hx m hm).imp (fun a m' _ h => ?_) fun _ _ _ h => h
  have hm' : 0 < m'.scopes.frames.size := by rwa [h.shape.size]
  exact (hf a m' hm').imp (fun _ _ _ h' => h.trans h') fun _ _ _ h' => h.trans h'

private theorem namesHere_readVariable (name : String) : NamesHere (readVariable name) := by
  apply namesHere_of_scopes_eq
  intro m
  rw [ends_readVariable]
  cases m.scopes.lookup? name <;> exact ⟨rfl, rfl⟩

private theorem namesHere_findFunction (name : String) (arity : Nat) :
    NamesHere (findFunction name arity) := by
  apply namesHere_of_scopes_eq
  intro m
  rw [ends_findFunction]
  cases m.scopes.function? name arity <;> exact ⟨rfl, rfl⟩

/-- An assignment writes to a variable that is there, so it adds no name at all. -/
private theorem namesHere_writeVariable (name : String) (value : Value) :
    NamesHere (writeVariable name value) := by
  intro m _
  rw [ends_writeVariable]
  cases hs : m.scopes.search (fun frame => frame.vars.get? name) with
  | none => exact (Machine.SameOutline.refl m).gains
  | some found =>
    have houtline := outline_store (found_of_search hs) value
    apply Machine.SameOutline.gains
    refine ⟨rfl, rfl, Array.ext_getElem? fun i => ?_⟩
    rw [Array.getElem?_map, Array.getElem?_map]
    exact houtline i

/-- A name is defined in the current frame. -/
private theorem namesHere_defineVariable (name : String) (value : Value) :
    NamesHere (defineVariable name value) := by
  intro m _
  rw [ends_defineVariable]
  cases hd : m.scopes.defineVariable name value with
  | error e => exact (Machine.SameOutline.refl m).gains
  | ok scopes =>
    have hgrows := Grows.of_defineVariable hd
    exact ⟨rfl, hgrows.shape, fun i hi => congrArg _ (hgrows.others i hi)⟩

/-- What is run in a frame of its own leaves the names of all other frames as they were. -/
theorem NamesHere.inScope {body : Exec α} (h : NamesHere body) (parent : FrameId) {m : Machine}
    (hm : 0 < m.scopes.frames.size) :
    Ends (inScope parent body) m (fun _ m' => m.SameOutline m') (fun _ m' => m.SameOutline m') := by
  rw [ends_inScope]
  have hpush : 0 < (m.scopes.pushChildOf parent).frames.size := by
    rw [pushChildOf_size]
    exact Nat.succ_pos _
  exact (h { m with scopes := m.scopes.pushChildOf parent } hpush).imp
    (fun _ _ _ hgains => hgains.leave hm) fun _ _ _ hgains => hgains.leave hm

/-- What a block defines goes away with its frame. -/
theorem NamesHere.inBlock {body : Exec α} (h : NamesHere body) : NamesHere (inBlock body) := by
  intro m hm
  exact (h.inScope m.scopes.current hm).imp (fun _ _ _ h => h.gains) fun _ _ _ h => h.gains

/-- What a method defines goes away with its frame. -/
theorem NamesHere.call {body : Exec α} (h : NamesHere body) :
    NamesHere (counted (Exec.inScope global body)) := by
  intro m hm
  rw [ends_counted]
  -- The count goes up and down once around the body.
  have hcount : ∀ m', Machine.SameOutline { m with calls := m.calls + 1 } m' →
      m.Gains { m' with calls := m'.calls - 1 } := by
    intro m' hsame
    refine ⟨?_, hsame.shape, hsame.gains.names⟩
    show m'.calls - 1 = m.calls
    rw [hsame.calls, Nat.add_sub_cancel]
  exact (h.inScope global (m := { m with calls := m.calls + 1 }) hm).imp
    (fun _ m' _ => hcount m') fun _ m' _ => hcount m'

/-! ## The evaluator -/

/-- If calls add no names elsewhere, then nothing does. -/
private theorem lockstep_namesHere (env : Env) {inv : Invoke}
    (hinv : ∀ method values, NamesHere (inv method values)) :
    Lockstep env env inv inv True fun x _ => NamesHere x where
  objects_eq := rfl
  pure := namesHere_pure
  fail := fun e => namesHere_throw (.error e)
  bind := NamesHere.bind
  readVariable := namesHere_readVariable
  writeVariable := namesHere_writeVariable
  defineVariable := namesHere_defineVariable
  inBlock := NamesHere.inBlock
  readField := fun _ _ => namesHere_ofNative _
  writeField := fun _ _ _ => namesHere_ofNative _
  call := by
    intro name values
    refine (namesHere_findFunction name values.length).bind fun callable => ?_
    cases callable with
    | native native => exact namesHere_ofNative _
    | method method => exact hinv method values
  method := fun _ _ => namesHere_ofNative _
  exhausted := fun _ => ⟨rfl, namesHere_throw .exhausted⟩

/-- A call runs in a frame of its own, however deep the calls in it go. -/
private theorem namesHere_invokeWithin (env : Env) (n : Nat) (method : Method)
    (values : List Value) :
    NamesHere (invokeWithin env n method values) := by
  induction n generalizing method values with
  | zero => exact namesHere_throw _
  | succ n ih =>
    have L := lockstep_namesHere env ih
    have hbody := L.methodBody method values (.inl trivial)
    rw [invokeWithin]
    have hget : NamesHere (get : Exec Machine) := namesHere_of_scopes_eq fun _ => ⟨rfl, rfl⟩
    refine hget.bind fun m => ?_
    -- Beyond the bound the call fails, and a failure adds no name.
    split
    · exact namesHere_throw _
    · exact hbody.call.bind fun completion => namesHere_pure _

section Loop

variable (env : Env) (n : Nat)

/-- An expression defines nothing outside its calls. -/
private theorem namesHere_evaluate (e : Expr) : NamesHere (evaluate env (invokeWithin env n) e) :=
  (lockstep_namesHere env (namesHere_invokeWithin env n)).evaluate e

/-- Statements define names in the frame of their block. -/
theorem namesHere_statements (body : List Statement) :
    NamesHere (statements env (invokeWithin env n) body) :=
  (lockstep_namesHere env (namesHere_invokeWithin env n)).statements body (.inl trivial)

/-- A round leaves nothing behind but values. -/
private theorem sameOutline_round (name : String) (body : List Statement) (k : Int) {m : Machine}
    (hm : 0 < m.scopes.frames.size) :
    Ends (round env (invokeWithin env n) name body k) m (fun _ m' => m.SameOutline m')
      (fun _ m' => m.SameOutline m') := by
  have hbody : NamesHere (do
      defineVariable name (.integer k)
      statements env (invokeWithin env n) body) :=
    (namesHere_defineVariable _ _).bind fun _ => namesHere_statements env n body
  exact hbody.inScope m.scopes.current hm

end Loop

end Exec

/-! ## Rounds written out -/

/-- The round of a loop for the number `k`, written out: a block that declares the variable and
    goes on with the body. -/
def loopBlock (name : String) (body : List Statement) (k : Int) : Statement :=
  .ifElse (.literal 0 (.boolean true))
    (.declare ⟨0, name, none, some (.literal 0 (.integer k))⟩ :: body) []

/-- The state in which the body of a round starts: there is one block more, and it holds the
    variable of the loop and nothing else. -/
def Machine.inRound (m : Machine) (name : String) (k : Int) : Machine :=
  let block : Frame Value Callable :=
    ⟨some m.scopes.current, some m.scopes.current, Table.empty.insert name (.integer k), .empty⟩
  { m with scopes := ⟨m.scopes.frames.push block, m.scopes.depth⟩ }

/-- The state in which the last frame has been left. -/
def Machine.outside (m : Machine) : Machine := { m with scopes := m.scopes.pop }

namespace Exec

/-- The variable of a loop can always be declared in the block of its round. -/
private theorem defineVariable_push (m : Machine) (name : String) (k : Int) :
    defineVariable name (.integer k) { m with scopes := m.scopes.push } =
      .ok () (m.inRound name k) := by
  have hfound : m.scopes.push.found (·.vars.get? name) m.scopes.push.current = none :=
    found_pushChildOf_size m.scopes m.scopes.current name
  have hframes : (m.scopes.push.store m.scopes.push.current name (.integer k)).frames =
      (m.inRound name k).scopes.frames := by
    apply Array.ext_getElem?
    intro i
    rw [store_frame, push, pushChildOf_current]
    by_cases hi : i = m.scopes.frames.size
    · subst hi
      rw [if_pos rfl, pushChildOf_frame_size]
      simp [Machine.inRound]
    · rw [if_neg hi]
      simp [pushChildOf, Machine.inRound, Array.getElem?_push, hi]
  have hstore : m.scopes.push.store m.scopes.push.current name (.integer k) =
      (m.inRound name k).scopes := by
    -- The current frame stays the one that was entered, so only the frames matter.
    show (⟨(m.scopes.push.store m.scopes.push.current name (.integer k)).frames,
      m.scopes.depth⟩ : Scopes Value Callable) = _
    rw [hframes]
    rfl
  simp only [defineVariable, changeScopes, defineVariable_eq, hfound, Option.isSome_none,
    Bool.false_eq_true, if_false, hstore]
  rfl

section Rounds

variable (env : Env) (inv : Invoke) (name : String) (body : List Statement)

/-- The block that is written out for a round is the round. -/
private theorem statement_loopBlock (k : Int) :
    statement env inv (loopBlock name body k) = round env inv name body k := by
  simp only [loopBlock, round, statement, statements, declare, evaluate, Literal.toValue,
    Value.toBool, ofExcept, pure_bind, bind_assoc, if_true]

/-- The rounds of a loop are the statements in which they are written out. -/
theorem forRounds_eq_statements (k : Int) (count : Nat) :
    forRounds (round env inv name body) k count =
      statements env inv ((List.range count).map fun i : Nat => loopBlock name body (k + i)) := by
  induction count generalizing k with
  | zero => simp only [forRounds, List.range_zero, List.map_nil, statements]
  | succ count ih =>
    -- The numbers behind the first are those of a loop that starts one later.
    have hrest :
        ((List.range count).map Nat.succ).map (fun i : Nat => loopBlock name body (k + i)) =
          (List.range count).map fun i : Nat => loopBlock name body (k + 1 + i) := by
      rw [List.map_map]
      refine List.map_congr_left fun i _ => ?_
      rw [Function.comp_apply, Int.natCast_succ, Int.add_assoc, Int.add_comm (i : Int)]
    rw [List.range_succ_eq_map, List.map_cons, hrest, statements, ← ih, Int.natCast_zero,
      Int.add_zero, statement_loopBlock]
    rfl

/-- A round starts with its number, and the block is left however the body ends. -/
private theorem round_eq_mapState (k : Int) (m : Machine) :
    round env inv name body k m =
      mapState Machine.outside (statements env inv body (m.inRound name k)) := by
  rw [round, inBlock, inScope_eq_mapState]
  congr 1
  simp only [bind, EStateM.bind]
  rw [← push, defineVariable_push]

/-- As long as rounds end without a `RETURN`, they leave nothing behind but values. -/
private theorem sameOutline_rounds (n : Nat) {numbers : List Int} {m m' : Machine}
    (hm : 0 < m.scopes.frames.size)
    (h : statements env (invokeWithin env n) (numbers.map (loopBlock name body)) m =
      .ok .normal m') : m.SameOutline m' := by
  induction numbers generalizing m with
  | nil =>
    rw [List.map_nil, statements] at h
    cases h
    exact .refl _
  | cons k numbers ih =>
    rw [List.map_cons, statements, statement_loopBlock] at h
    obtain ⟨completion, m₁, hround, hrest⟩ := exists_of_bind_eq_ok h
    have hsame := (sameOutline_round env n name body k hm).of_ok hround
    -- A round that returns would have ended the loop.
    cases completion with
    | normal => exact hsame.trans (ih (by rwa [hsame.shape.size]) hrest)
    | returned v => exact nomatch hrest

end Rounds

end Exec

/-! ## What a round can see -/

namespace Scopes

variable {V F : Type}

/-- Which names are found depends on the names that the frames have and on their parents. -/
private theorem isSome_searchFrom {frames frames' : Array (Frame V F)}
    (h : ∀ i : Nat, frames'[i]?.map Frame.outline = frames[i]?.map Frame.outline) (name : String)
    (n : Nat) (i : FrameId) :
    (searchFrom frames' (·.vars.get? name) n i).isSome =
      (searchFrom frames (·.vars.get? name) n i).isSome := by
  induction n generalizing i with
  | zero => rfl
  | succ n ih =>
    have hi := h i
    simp only [searchFrom]
    cases hf : frames[i]? with
    | none =>
      rw [hf, Option.map_none, Option.map_eq_none_iff] at hi
      rw [hi]
    | some f =>
      rw [hf, Option.map_some, Option.map_eq_some_iff] at hi
      obtain ⟨f', hf', heq⟩ := hi
      simp only [Frame.outline, Frame.skeleton, Prod.mk.injEq] at heq
      -- The frame has the name in both stacks, or in neither and then the parents are asked.
      have hhas : (f'.vars.get? name).isSome = (f.vars.get? name).isSome := by
        have hiff := Table.contains_iff f'.vars name
        rw [heq.2, ← Table.contains_iff] at hiff
        exact Bool.eq_iff_iff.mpr hiff
      rw [hf']
      simp only [heq.1.1]
      cases hget : f.vars.get? name with
      | some v =>
        rw [hget, Option.isSome_some, Option.isSome_iff_exists] at hhas
        obtain ⟨v', hv'⟩ := hhas
        rw [hv']
        rfl
      | none =>
        rw [hget, Option.isSome_none, Option.isSome_eq_false_iff, Option.isNone_iff_eq_none] at hhas
        rw [hhas]
        cases f.parent with
        | none => rfl
        | some parent => exact ih parent

/-- A search below a new frame does not see it. -/
private theorem Linked.searchFrom_push {s : Scopes V F} (h : s.Linked) (f : Frame V F) {α : Type}
    (get : Frame V F → Option α) (n : Nat) {i : FrameId} (hi : i < s.frames.size) :
    searchFrom (s.frames.push f) get n i = searchFrom s.frames get n i := by
  induction n generalizing i with
  | zero => rfl
  | succ n ih =>
    obtain ⟨g, hg⟩ : ∃ g, s.frames[i]? = some g := ⟨_, Array.getElem?_eq_getElem hi⟩
    simp only [searchFrom, Array.getElem?_push, Nat.ne_of_lt hi, if_false, hg]
    cases get g with
    | some a => rfl
    | none =>
      cases hparent : g.parent with
      | none => rfl
      | some parent =>
        -- Parents are further down, so they are not the new frame.
        obtain hzero | hpos := Nat.eq_zero_or_pos i
        · subst hzero
          obtain ⟨g', hg', hnone⟩ := h.rooted
          rw [hg] at hg'
          cases hg'
          rw [hparent] at hnone
          cases hnone
        · obtain ⟨p, hp, hparent'⟩ := h.parent_lt i g hpos hg
          rw [hparent] at hparent'
          cases hparent'
          exact ih (Nat.lt_trans hp hi)

end Scopes

namespace Machine

variable {m m' : Machine}

/-- Machines of one outline see the same names. -/
private theorem SameOutline.isSome_lookup? (h : m.SameOutline m') (name : String) :
    (m'.scopes.lookup? name).isSome = (m.scopes.lookup? name).isSome := by
  simp only [lookup?, search, Option.isSome_map, h.current, h.shape.size]
  exact isSome_searchFrom h.frame name _ _

/-- The body of a round sees the variable of the loop, and else what is seen around the loop. -/
private theorem lookup?_inRound (h : m.scopes.Linked) (name : String) (k : Int) (x : String) :
    (m.inRound name k).scopes.lookup? x =
      if x = name then some (.integer k) else m.scopes.lookup? x := by
  have hblock : ((Table.empty : Table String Value).insert name (.integer k)).get? x =
      if x = name then some (.integer k) else none := by
    rw [Table.get?_insert, Table.get?_empty]
  simp only [lookup?, search, inRound, depth, Array.size_push, searchFrom, Array.getElem?_push_size,
    hblock]
  by_cases hx : x = name
  · simp only [hx, if_true, Option.map_some]
  · simp only [hx, if_false]
    exact congrArg _ (h.searchFrom_push _ _ _ h.current_lt)

end Machine

/-! ## The loop -/

/-- The numbers of a range are counted from its start. -/
private theorem eq_add_of_range_eq {a b k : Int} {before after : List Int}
    (h : Int.range a b = before ++ k :: after) : k = a + before.length := by
  have hk : (Int.range a b)[before.length]? = some k := by rw [h]; simp
  rw [Int.range, List.getElem?_map, Option.map_eq_some_iff] at hk
  obtain ⟨i, hi, rfl⟩ := hk
  obtain ⟨_, heq⟩ := List.getElem?_eq_some_iff.mp hi
  rw [List.getElem_range] at heq
  rw [heq]

/-- A loop is its rounds written out.  When the iterable has become the range from `a` up to `b`,
    the loop ends like the blocks for `a`, `a + 1`, …, `b - 1` one after the other, the iterable is
    not looked at again, and the first block that returns or fails is the last one.

    Every block that the run comes to is due for the number that its place says, whatever the blocks
    before it have assigned; these have left no names behind, so its body starts with the variable
    of the loop and the names that were visible before the loop. -/
theorem forIn_is_unrolled (env : Env) (n : Nat) (name : String) (iterable : Expr)
    (body : List Statement) {m m₁ : Machine} {a b : Int}
    (hrange : evaluate env (invokeWithin env n) iterable m = .ok (.range a b) m₁) :
    statement env (invokeWithin env n) (.forIn name iterable body) m =
      statements env (invokeWithin env n) ((Int.range a b).map (loopBlock name body)) m₁ ∧
    (m.scopes.Linked → ∀ before k after m₂, Int.range a b = before ++ k :: after →
      statements env (invokeWithin env n) (before.map (loopBlock name body)) m₁ =
        .ok .normal m₂ →
      k = a + before.length ∧ m₁.SameOutline m₂ ∧
      statement env (invokeWithin env n) (loopBlock name body k) m₂ =
        mapState Machine.outside
          (statements env (invokeWithin env n) body (m₂.inRound name k)) ∧
      (m₂.inRound name k).scopes.lookup? name = some (.integer k) ∧
      ∀ x ≠ name, ((m₂.inRound name k).scopes.lookup? x).isSome =
        (m₁.scopes.lookup? x).isSome) := by
  constructor
  · rw [statement]
    simp only [bind, EStateM.bind, hrange, Value.elements?]
    have hrounds := forRounds_eq_statements env (invokeWithin env n) name body a (b - a).toNat
    rw [Int.range, List.map_map]
    exact congrFun hrounds m₁
  · intro hlinked before k after m₂ hsplit hbefore
    -- Evaluating the range may call methods, but it opens no scope that stays.
    have hgains := (namesHere_evaluate env n iterable m hlinked.rooted.size_pos).of_ok hrange
    have hlinked₁ := hlinked.sameShape hgains.shape
    -- The rounds before this one have closed their scopes again.
    have hsame := sameOutline_rounds env name body n hlinked₁.rooted.size_pos hbefore
    have hlinked₂ := hlinked₁.sameShape hsame.shape
    refine ⟨eq_add_of_range_eq hsplit, hsame, ?_, ?_, ?_⟩
    · rw [statement_loopBlock, round_eq_mapState]
    · rw [Machine.lookup?_inRound hlinked₂, if_pos rfl]
    · intro x hx
      rw [Machine.lookup?_inRound hlinked₂, if_neg hx, hsame.isSome_lookup?]

/-- A call with a local `total`, and a global `limit`. -/
def squaring : Machine where
  scopes :=
    ⟨#[⟨none, none, .ofList [("limit", .integer 4)], .ofList [(("range", 2), .native .range)]⟩,
      ⟨some 0, some 0, .ofList [("total", .integer 0)], .empty⟩], 1⟩
  world := default
  calls := 1

/-- `LET square = i * i; total = total + square; i = 9; limit = 0;` -/
def squares : List Statement :=
  [.declare ⟨0, "square", none, some (.binary 0 .times (.var 0 "i") (.var 0 "i"))⟩,
    .assign (.var 0 "total") (.binary 0 .plus (.var 0 "total") (.var 0 "square")),
    .assign (.var 0 "i") (.literal 0 (.integer 9)),
    .assign (.var 0 "limit") (.literal 0 (.integer 0))]

private theorem linked_squaring : squaring.scopes.Linked where
  rooted := ⟨_, rfl, rfl⟩
  current_lt := by decide
  parent_lt := by
    intro i f hi hf
    have hlt : i < 2 := (Array.getElem?_eq_some_iff.mp hf).1
    -- There are two frames, and the inner one hangs below the global one.
    obtain rfl : i = 1 := by omega
    cases hf
    exact ⟨0, by decide, rfl⟩
  functionsGlobal := by
    intro i f hi hf
    have hlt : i < 2 := (Array.getElem?_eq_some_iff.mp hf).1
    obtain rfl : i = 1 := by omega
    cases hf
    rfl

/-- Whether a run ends without a `RETURN` in a state of which `P` holds. -/
def endsNormally (P : Machine → Bool) : EStateM.Result Halt Machine Completion → Bool
  | .ok .normal m => P m
  | _ => false

/-- A run that ends normally can be inspected. -/
private theorem exists_of_endsNormally {P : Machine → Bool}
    {r : EStateM.Result Halt Machine Completion}
    (h : endsNormally P r = true) : ∃ m, r = .ok .normal m ∧ P m = true := by
  unfold endsNormally at h
  split at h
  · exact ⟨_, rfl, h⟩
  · exact nomatch h

/-- `FOR i IN range(1, limit)` comes to its third round with 3, though the rounds before it have
    assigned to both variables, and what they have declared is gone. -/
theorem squares_are_unrolled :
    ∃ m₁ m₂, evaluate ⟨[], 0⟩ (invokeWithin ⟨[], 0⟩ 1)
        (.call 0 "range" [.literal 0 (.integer 1), .var 0 "limit"]) squaring =
        .ok (.range 1 4) m₁ ∧
      statements ⟨[], 0⟩ (invokeWithin ⟨[], 0⟩ 1) ([1, 2].map (loopBlock "i" squares)) m₁ =
        .ok .normal m₂ ∧
      (m₂.inRound "i" 3).scopes.lookup? "i" = some (.integer 3) ∧
      ((m₂.inRound "i" 3).scopes.lookup? "square").isSome = false ∧
      ∃ m₃, statement ⟨[], 0⟩ (invokeWithin ⟨[], 0⟩ 1)
        (.forIn "i" (.call 0 "range" [.literal 0 (.integer 1), .var 0 "limit"]) squares) squaring =
          .ok .normal m₃ ∧ m₃.scopes.lookup? "total" = some (.integer 14) := by
  have hrange : evaluate ⟨[], 0⟩ (invokeWithin ⟨[], 0⟩ 1)
      (.call 0 "range" [.literal 0 (.integer 1), .var 0 "limit"]) squaring =
      .ok (.range 1 4) squaring := rfl
  -- The body is run twice, and the third round starts where these two end.
  have hloop := forIn_is_unrolled ⟨[], 0⟩ 1 "i" _ squares hrange
  obtain ⟨m₂, htwo, -⟩ := exists_of_endsNormally (P := fun _ => true)
    (show endsNormally _ (statements ⟨[], 0⟩ (invokeWithin ⟨[], 0⟩ 1)
      ([1, 2].map (loopBlock "i" squares)) squaring) = true by decide +kernel)
  obtain ⟨-, -, -, hnumber, hnames⟩ := hloop.2 linked_squaring [1, 2] 3 [] m₂ (by decide) htwo
  refine ⟨_, m₂, hrange, htwo, hnumber, ?_, ?_⟩
  · rw [hnames "square" (by decide)]
    rfl
  · rw [hloop.1]
    obtain ⟨m₃, hrun, htotal⟩ := exists_of_endsNormally
      (P := fun m => m.scopes.lookup? "total" = some (.integer 14))
      (show endsNormally _ (statements ⟨[], 0⟩ (invokeWithin ⟨[], 0⟩ 1)
        ((Int.range 1 4).map (loopBlock "i" squares)) squaring) = true by decide +kernel)
    exact ⟨m₃, hrun, of_decide_eq_true htotal⟩

end LetLang
