import LetLang.Proofs.Scopes

/-! # Scopes are a stack of environments

Frames know each other by their positions, and each has two links.  Whatever is done with them, as
long as a frame is only entered below one that is there, they are a stack: the current frame is the
last one, and the frame below it is the one to which leaving goes back.  The parents of a frame make
up its static chain, which leads down to the global frame, and every lookup answers from the nearest
frame on the chain of the current one.

## Key results

- `Stacked.effect`, `Stacked.of_effect`: what one operation can do, and that it keeps the stack
- `Stacked.run`: so any number of operations keeps it
- `Stacked.search_iff`: a lookup answers from the nearest frame on the static chain
- `Stacked.frame_of_effect`: one operation changes nothing below the current frame but a value
- `Stacked.outline_run`, `Stacked.found_run`: so what is done above some frames changes nothing in
  them but values that are written to their variables
- `operations_keep_stack`: all this about the stacks to which any operations lead
-/

namespace LetLang

/-- The two links of a frame. -/
def Frame.links {V F : Type} (f : Frame V F) : Option FrameId × Option FrameId :=
  (f.parent, f.previous)

/-- What a frame consists of besides the values of its variables: its links, its functions and the
    names of its variables. -/
def Frame.outline {V F : Type} (f : Frame V F) :
    (Option FrameId × Option FrameId × Table FunctionKey F) × List String :=
  (f.skeleton, f.vars.keys)

namespace Scopes

variable {V F α : Type}

/-! ## Operations -/

/-- The operations that change a stack; the others only look at it. -/
inductive Op (V F : Type) where
  | push
  | pushChildOf (parent : FrameId)
  | pop
  | defineVariable (name : String) (value : V)
  | defineFunction (name : String) (arity : Nat) (function : F)
  | redefineFunction (name : String) (arity : Nat) (function : F)
  | assign (name : String) (value : V)

/-- The stack after an operation.  One that fails leaves it as it is. -/
def Op.apply (s : Scopes V F) : Op V F → Scopes V F
  | .push => s.push
  | .pushChildOf parent => s.pushChildOf parent
  | .pop => s.pop
  | .defineVariable name value => (s.defineVariable name value).toOption.getD s
  | .defineFunction name arity function => (s.defineFunction name arity function).toOption.getD s
  | .redefineFunction name arity function => s.redefineFunction name arity function
  | .assign name value => (s.assign? name value).getD s

/-- The stack after some operations. -/
def run (s : Scopes V F) (ops : List (Op V F)) : Scopes V F := ops.foldl Op.apply s

@[simp] theorem run_nil (s : Scopes V F) : s.run [] = s := rfl

@[simp] theorem run_cons (s : Scopes V F) (op : Op V F) (ops : List (Op V F)) :
    s.run (op :: ops) = (op.apply s).run ops := rfl

/-- Operations can be run in two parts. -/
private theorem run_append (s : Scopes V F) (ops ops' : List (Op V F)) :
    s.run (ops ++ ops') = (s.run ops).run ops' := List.foldl_append

/-- A frame may be entered below any frame that is still there. -/
def Op.allowed (s : Scopes V F) : Op V F → Bool
  | .pushChildOf parent => parent < s.depth
  | _ => true

/-- Each of the operations is allowed when it is its turn. -/
def permitted (s : Scopes V F) : List (Op V F) → Bool
  | [] => true
  | op :: ops => op.allowed s && permitted (op.apply s) ops

/-- All the time there are more than `base` frames. -/
def staysAbove (base : Nat) (s : Scopes V F) : List (Op V F) → Bool
  | [] => base < s.depth
  | op :: ops => base < s.depth && staysAbove base (op.apply s) ops

/-! ## The stack -/

/-- The frames are a stack: the last one is current, and leaving a frame goes back to the one below
    it.  The parent of a frame is one below it, too, but not always the next. -/
structure Stacked (s : Scopes V F) : Prop where
  depth_eq : s.depth = s.current + 1
  bottom : ∃ f, s.frames[0]? = some f ∧ f.parent = none ∧ f.previous = none
  above : ∀ i f, s.frames[i + 1]? = some f → f.previous = some i ∧ ∃ p ≤ i, f.parent = some p

/-- What an operation can do to the frames of a stack. -/
inductive Effect (s : Scopes V F) : Op V F → Scopes V F → Prop where
  | enter {op : Op V F} {parent : FrameId} : parent < s.depth → Effect s op (s.pushChildOf parent)
  | leave : Effect s .pop s.pop
  | define {op : Op V F} {change : Frame V F → Frame V F} :
    (∀ f, (change f).links = f.links) → Effect s op (s.modifyFrame s.current change)
  | assign {name : String} {value v : V} {i : FrameId} :
    s.search (·.vars.get? name) = some (i, v) →
    Effect s (.assign name value) (s.store i name value)
  | fail {op : Op V F} : Effect s op s

namespace Stacked

variable {s s' : Scopes V F}

/-- The first stack is the global frame. -/
theorem new : Stacked (Scopes.new : Scopes V F) where
  depth_eq := rfl
  bottom := ⟨_, rfl, rfl, rfl⟩
  above := by
    intro i f hf
    exact nomatch hf

/-- The current frame is one of the stack. -/
theorem current_lt (h : Stacked s) : s.current < s.depth := by
  rw [h.depth_eq]
  exact Nat.lt_succ_self _

/-- The current frame is the topmost one. -/
private theorem le_current (h : Stacked s) {base : Nat} (hbase : base < s.depth) :
    base ≤ s.current := by
  rw [h.depth_eq] at hbase
  exact Nat.le_of_lt_succ hbase

/-- Changing what a frame holds does not move it. -/
theorem modifyFrame (h : Stacked s) (i : FrameId) {change : Frame V F → Frame V F}
    (hchange : ∀ f, (change f).links = f.links) : Stacked (s.modifyFrame i change) := by
  -- Every frame has the links that it had before.
  have hframe : ∀ (j : Nat) (f : Frame V F), (s.modifyFrame i change).frames[j]? = some f →
      ∃ f', s.frames[j]? = some f' ∧ f'.parent = f.parent ∧ f'.previous = f.previous := by
    intro j f hf
    simp only [Scopes.modifyFrame, Array.getElem?_modify] at hf
    split at hf
    · obtain ⟨f', hf', rfl⟩ := Option.map_eq_some_iff.mp hf
      have hlinks := hchange f'
      simp only [Frame.links, Prod.mk.injEq] at hlinks
      exact ⟨f', hf', hlinks.1.symm, hlinks.2.symm⟩
    · exact ⟨f, hf, rfl, rfl⟩
  constructor
  · simpa [Scopes.modifyFrame, depth] using h.depth_eq
  · obtain ⟨f, hf, hparent, hprevious⟩ := h.bottom
    have hsize : 0 < (s.modifyFrame i change).frames.size := by
      simpa [Scopes.modifyFrame] using (Array.getElem?_eq_some_iff.mp hf).1
    obtain ⟨f', hf', hparent', hprevious'⟩ := hframe 0 _ (Array.getElem?_eq_getElem hsize)
    rw [hf] at hf'
    cases hf'
    exact ⟨_, Array.getElem?_eq_getElem hsize, hparent'.symm.trans hparent,
      hprevious'.symm.trans hprevious⟩
  · intro j f hf
    obtain ⟨f', hf', hparent, hprevious⟩ := hframe (j + 1) f hf
    rw [← hparent, ← hprevious]
    exact h.above j f' hf'

/-- A frame is entered on top of the others. -/
theorem pushChildOf (h : Stacked s) {parent : FrameId} (hparent : parent < s.depth) :
    Stacked (s.pushChildOf parent) := by
  have hsize := h.depth_eq
  rw [depth] at hsize hparent
  constructor
  · rw [depth, pushChildOf_size, pushChildOf_current]
  · obtain ⟨f, hf, hlinks⟩ := h.bottom
    exact ⟨f, (pushChildOf_frame_lt s parent (by omega)).trans hf, hlinks⟩
  · intro i f hf
    have hlt := (Array.getElem?_eq_some_iff.mp hf).1
    rw [pushChildOf_size] at hlt
    by_cases hi : i + 1 < s.frames.size
    · exact h.above i f ((pushChildOf_frame_lt s parent hi).symm.trans hf)
    · -- The new frame is on top of the one that was current.
      obtain rfl : i = s.current := by omega
      rw [← hsize, pushChildOf_frame_size] at hf
      cases hf
      rw [hsize] at hparent
      exact ⟨rfl, parent, Nat.le_of_lt_succ hparent, rfl⟩

/-- Leaving takes the last frame away, except the global one. -/
private theorem pop_eq (h : Stacked s) :
    s.pop = if s.depth ≤ 1 then s else ⟨s.frames.pop, s.current - 1⟩ := by
  have hsize := h.depth_eq
  rw [depth] at hsize ⊢
  rw [Scopes.pop]
  split
  · rfl
  · rename_i hmore
    cases hcurrent : s.current with
    | zero => exact absurd (by simp [hsize, hcurrent]) hmore
    | succ i =>
      -- The last frame is the current one, and its link leads to the one below.
      rw [hcurrent] at hsize
      have hlt : i + 1 < s.frames.size := by omega
      have hback : s.frames.back? = some s.frames[i + 1] := by
        rw [Array.back?_eq_getElem?, hsize, Nat.add_sub_cancel, Array.getElem?_eq_getElem hlt]
      have hprevious := (h.above i _ (Array.getElem?_eq_getElem hlt)).1
      simp [hback, hprevious]

/-- The frames below the last one are still there after it is left. -/
private theorem pop_frame (h : Stacked s) (hmore : 1 < s.depth) (i : Nat) :
    s.pop.frames[i]? = if i < s.current then s.frames[i]? else none := by
  have hsize : s.frames.size - 1 = s.current := Nat.sub_eq_of_eq_add h.depth_eq
  rw [h.pop_eq, if_neg (by omega), Array.getElem?_pop, hsize]

/-- Taking away the topmost frame leaves the others as they are. -/
theorem pop (h : Stacked s) : Stacked s.pop := by
  have hsize := h.depth_eq
  rw [h.pop_eq]
  rw [depth] at hsize ⊢
  split
  · exact h
  constructor
  · simp only [depth, Array.size_pop]
    omega
  · obtain ⟨f, hf, hlinks⟩ := h.bottom
    exact ⟨f, by rw [Array.getElem?_pop, if_pos (by omega), hf], hlinks⟩
  · intro i f hf
    -- The frames that are left are where they were.
    rw [Array.getElem?_pop] at hf
    split at hf
    · exact h.above i f hf
    · exact nomatch hf

/-- Each operation has one of the effects. -/
theorem effect (h : Stacked s) {op : Op V F} (hop : op.allowed s = true) :
    Effect s op (op.apply s) := by
  cases op with
  | push => exact .enter h.current_lt
  | pushChildOf parent => exact .enter (by simpa [Op.allowed] using hop)
  | pop => exact .leave
  | defineVariable name value =>
    -- The current frame has the name already, or it gets it.
    rw [Op.apply, defineVariable_eq]
    split
    · exact .fail
    · exact .define fun _ => rfl
  | defineFunction name arity function =>
    simp only [Op.apply, defineFunction]
    split
    · exact .fail
    · exact .define fun _ => rfl
  | redefineFunction name arity function => exact .define fun _ => rfl
  | assign name value =>
    rw [Op.apply, assign?_eq]
    cases hsearch : s.search fun frame => frame.vars.get? name with
    | none => exact .fail
    | some found => exact .assign hsearch

/-- Every operation keeps the stack. -/
theorem of_effect (h : Stacked s) {op : Op V F} (he : Effect s op s') : Stacked s' := by
  cases he with
  | enter hparent => exact h.pushChildOf hparent
  | leave => exact h.pop
  | define hchange => exact h.modifyFrame _ hchange
  | assign _ => exact h.modifyFrame _ fun _ => rfl
  | fail => exact h

/-- Any number of operations keeps a stack well stacked. -/
theorem run (h : Stacked s) {ops : List (Op V F)} (hops : s.permitted ops = true) :
    Stacked (s.run ops) := by
  induction ops generalizing s with
  | nil => exact h
  | cons op ops ih =>
    simp only [permitted, Bool.and_eq_true] at hops
    exact ih (h.of_effect (h.effect hops.1)) hops.2

end Stacked

/-! ## Static chains -/

/-- The frames in which a name is looked up from frame `i` on, one after the other: the frame
    itself, its parent, and so on down to the frame that has none. -/
inductive StaticChain (s : Scopes V F) : FrameId → List FrameId → Prop where
  | last {i : FrameId} {f : Frame V F} :
    s.frames[i]? = some f → f.parent = none → StaticChain s i [i]
  | inner {i parent : FrameId} {f : Frame V F} {chain : List FrameId} :
    s.frames[i]? = some f → f.parent = some parent → StaticChain s parent chain →
    StaticChain s i (i :: chain)

/-- The first frame on the chain in which `get` finds anything is `i`, and it finds `a` there. -/
def Nearest (s : Scopes V F) (chain : List FrameId) (get : Frame V F → Option α) (i : FrameId)
    (a : α) : Prop :=
  ∃ inner outer, chain = inner ++ i :: outer ∧ s.found get i = some a ∧
    ∀ j ∈ inner, s.found get j = none

/-- The nearest frame that has something has it. -/
theorem Nearest.found {s : Scopes V F} {chain : List FrameId} {get : Frame V F → Option α}
    {i : FrameId} {a : α} (h : Nearest s chain get i a) : s.found get i = some a := by
  obtain ⟨_, _, _, hfound, _⟩ := h
  exact hfound

/-- With enough steps, a search goes through the static chain. -/
theorem searchFrom_chain {s : Scopes V F} {i : FrameId} {chain : List FrameId}
    (h : StaticChain s i chain) (get : Frame V F → Option α) {n : Nat} (hn : chain.length ≤ n) :
    searchFrom s.frames get n i = chain.findSome? fun j => (s.found get j).map (j, ·) := by
  induction h generalizing n with
  | @last i f hf hparent =>
    obtain ⟨n, rfl⟩ : ∃ n', n = n' + 1 := ⟨n - 1, by simp at hn; omega⟩
    simp only [searchFrom, hf, hparent, found, List.findSome?_cons, Option.bind_some]
    cases get f <;> rfl
  | @inner i parent f chain hf hparent _ ih =>
    simp only [List.length_cons] at hn
    obtain ⟨n, rfl⟩ : ∃ n', n = n' + 1 := ⟨n - 1, by omega⟩
    simp only [searchFrom, hf, hparent, List.findSome?_cons]
    -- The search stops at this frame or goes on with its parent.
    cases hget : get f with
    | some a => simp [found, hf, hget]
    | none =>
      simp only [found, hf, hget, Option.bind_some, Option.map_none]
      exact ih (by omega)

namespace Stacked

variable {s : Scopes V F}

/-- Chains go down, so they are not longer than the stack is high. -/
theorem length_chain_le (h : Stacked s) {i : FrameId} {chain : List FrameId}
    (hchain : StaticChain s i chain) : chain.length ≤ i + 1 := by
  induction hchain with
  | last => simp
  | @inner i parent f chain hf hparent _ ih =>
    -- The frame at the bottom has no parent, and every other one has its parent below.
    cases i with
    | zero =>
      obtain ⟨f', hf', hnone, -⟩ := h.bottom
      rw [hf] at hf'
      cases hf'
      rw [hparent] at hnone
      exact nomatch hnone
    | succ i =>
      obtain ⟨-, p, hp, hparent'⟩ := h.above i f hf
      rw [hparent] at hparent'
      cases hparent'
      simp only [List.length_cons]
      omega

/-- Every frame has a chain. -/
theorem exists_chain (h : Stacked s) {i : Nat} (hi : i < s.depth) :
    ∃ chain, StaticChain s i chain := by
  -- The parent is further down, so its chain is there by induction on the position.
  induction i using Nat.strongRecOn with
  | ind i ih =>
    obtain ⟨f, hf⟩ : ∃ f, s.frames[i]? = some f := ⟨_, Array.getElem?_eq_getElem hi⟩
    cases i with
    | zero =>
      obtain ⟨f, hf, hparent, -⟩ := h.bottom
      exact ⟨_, .last hf hparent⟩
    | succ i =>
      obtain ⟨-, p, hp, hparent⟩ := h.above i f hf
      obtain ⟨chain, hchain⟩ := ih p (by omega) (by omega)
      exact ⟨_, .inner hf hparent hchain⟩

/-- A lookup answers from the nearest frame on the chain of the current one. -/
theorem search_iff (h : Stacked s) {chain : List FrameId} (hchain : StaticChain s s.current chain)
    (get : Frame V F → Option α) (i : FrameId) (a : α) :
    s.search get = some (i, a) ↔ Nearest s chain get i a := by
  -- The chain is no longer than the stack, so the search has enough steps.
  have hlength : chain.length ≤ s.frames.size := by
    have := h.length_chain_le hchain
    rwa [← h.depth_eq] at this
  rw [search, searchFrom_chain hchain get hlength, List.findSome?_eq_some_iff]
  simp only [Option.map_eq_some_iff, Option.map_eq_none_iff, Prod.mk.injEq]
  constructor
  · intro hfound
    obtain ⟨inner, j, outer, heq, ⟨b, hb, rfl, rfl⟩, hnone⟩ := hfound
    exact ⟨inner, outer, heq, hb, hnone⟩
  · intro hnearest
    obtain ⟨inner, outer, heq, ha, hnone⟩ := hnearest
    exact ⟨inner, i, outer, heq, ⟨a, ha, rfl, rfl⟩, hnone⟩

end Stacked

/-! ## Below the current frame -/

/-- Writing a variable that a frame has keeps all the names in that frame. -/
theorem outline_store {s : Scopes V F} {i : Nat} {name : String} {v : V}
    (h : s.found (·.vars.get? name) i = some v) (value : V) (j : Nat) :
    (s.store i name value).frames[j]?.map Frame.outline = s.frames[j]?.map Frame.outline := by
  rw [store_frame]
  split
  · rename_i hj
    subst hj
    obtain ⟨f, hf, hget⟩ := Option.bind_eq_some_iff.mp h
    have hname : name ∈ f.vars.keys := by
      rw [← Table.contains_iff, Table.contains, hget]
      rfl
    simp [hf, Frame.outline, Frame.skeleton, Table.keys_insert, hname]
  · rfl

/-- Among `ops` is an assignment that gives the variable `name` of frame `i` the value `value`.  It
    is made in a frame from `base` on, and on the static chain of that frame `i` is the nearest with
    a variable of that name. -/
def Written (base : Nat) (s : Scopes V F) (ops : List (Op V F)) (i : FrameId) (name : String)
    (value : V) : Prop :=
  ∃ before after chain old, ops = before ++ .assign name value :: after ∧
    base ≤ (s.run before).current ∧
    StaticChain (s.run before) (s.run before).current chain ∧
    Nearest (s.run before) chain (·.vars.get? name) i old

/-- What is written later is written. -/
theorem Written.cons {base : Nat} {s : Scopes V F} {op : Op V F} {ops : List (Op V F)} {i : FrameId}
    {name : String} {value : V} (h : Written base (op.apply s) ops i name value) :
    Written base s (op :: ops) i name value := by
  obtain ⟨before, after, chain, old, rfl, hrest⟩ := h
  exact ⟨op :: before, after, chain, old, rfl, hrest⟩

namespace Stacked

variable {s s' : Scopes V F}

/-- A frame below the current one stays as it is, unless a variable is written that is found in
    it. -/
theorem frame_of_effect (h : Stacked s) {op : Op V F} (he : Effect s op s') {i : Nat}
    (hi : i < s.current) :
    s'.frames[i]? = s.frames[i]? ∨
      ∃ name value v chain, op = .assign name value ∧ StaticChain s s.current chain ∧
        Nearest s chain (·.vars.get? name) i v ∧ s' = s.store i name value := by
  have hsize : s.frames.size = s.current + 1 := h.depth_eq
  cases he with
  | @enter _ parent _ => exact .inl (pushChildOf_frame_lt s parent (by omega))
  | leave => exact .inl (by rw [h.pop_frame (by rw [depth]; omega), if_pos hi])
  | define _ =>
    left
    rw [Scopes.modifyFrame, Array.getElem?_modify, if_neg (Nat.ne_of_gt hi)]
  | @assign name value v j hsearch =>
    -- An assignment writes the frame in which the variable was found, and no other.
    by_cases hj : i = j
    · subst hj
      obtain ⟨chain, hchain⟩ := h.exists_chain h.current_lt
      exact .inr ⟨name, value, v, chain, rfl, hchain, (h.search_iff hchain _ i v).mp hsearch, rfl⟩
    · left
      rw [store_frame, if_neg hj]
  | fail => exact .inl rfl

/-- What is done above some frames keeps their links, their functions and the names in them. -/
theorem outline_run (h : Stacked s) {base : Nat} {ops : List (Op V F)}
    (hops : s.permitted ops = true) (habove : staysAbove base s ops = true) {i : Nat}
    (hi : i < base) :
    (s.run ops).frames[i]?.map Frame.outline = s.frames[i]?.map Frame.outline := by
  induction ops generalizing s with
  | nil => rfl
  | cons op ops ih =>
    simp only [permitted, staysAbove, Bool.and_eq_true, decide_eq_true_eq] at hops habove
    have heffect := h.effect hops.1
    -- The current frame is one of those above, so the step is made there.
    have hcurrent := h.le_current habove.1
    rw [run_cons, ih (h.of_effect heffect) hops.2 habove.2]
    obtain hsame | ⟨name, value, v, chain, -, -, hnearest, hstore⟩ :=
      h.frame_of_effect heffect (Nat.lt_of_lt_of_le hi hcurrent)
    · rw [hsame]
    · rw [hstore]
      exact outline_store hnearest.found value i

/-- A variable below them has the value that it had before, or one that was written to it. -/
theorem found_run (h : Stacked s) {base : Nat} {ops : List (Op V F)}
    (hops : s.permitted ops = true) (habove : staysAbove base s ops = true) {i : Nat}
    (hi : i < base) (name : String) :
    (s.run ops).found (·.vars.get? name) i = s.found (·.vars.get? name) i ∨
      ∃ value, (s.run ops).found (·.vars.get? name) i = some value ∧
        Written base s ops i name value := by
  induction ops generalizing s with
  | nil => exact .inl rfl
  | cons op ops ih =>
    simp only [permitted, staysAbove, Bool.and_eq_true, decide_eq_true_eq] at hops habove
    have heffect := h.effect hops.1
    have hcurrent := h.le_current habove.1
    -- The last assignment counts, so the later operations come first.
    obtain hlater | ⟨value, hvalue, hwritten⟩ := ih (h.of_effect heffect) hops.2 habove.2
    · rw [run_cons, hlater]
      obtain hsame | ⟨name', value, v, chain, rfl, hchain, hnearest, hstore⟩ :=
        h.frame_of_effect heffect (Nat.lt_of_lt_of_le hi hcurrent)
      · rw [found, hsame]
        exact .inl rfl
      · obtain ⟨f, hf, -⟩ := Option.bind_eq_some_iff.mp hnearest.found
        rw [hstore, found_store hf]
        split
        · rename_i heq
          obtain ⟨-, rfl⟩ := heq
          exact .inr ⟨value, rfl, [], ops, chain, v, rfl, hcurrent, hchain, hnearest⟩
        · exact .inl rfl
    · exact .inr ⟨value, hvalue, hwritten.cons⟩

end Stacked

/-! ## Looking up and binding -/

/-- `s'` is `s` with `value` for the variable `name` of frame `i`. -/
structure BindsVariable (s : Scopes V F) (i : FrameId) (name : String) (value : V)
    (s' : Scopes V F) : Prop where
  shape : SameShape s s'
  found : ∀ j other, s'.found (·.vars.get? other) j =
    if j = i ∧ other = name then some value else s.found (·.vars.get? other) j

/-- `s'` is `s` with `function` under `key` in frame `i`. -/
structure BindsFunction (s : Scopes V F) (i : FrameId) (key : FunctionKey) (function : F)
    (s' : Scopes V F) : Prop where
  current : s'.current = s.current
  links : ∀ j : Nat, s'.frames[j]?.map Frame.links = s.frames[j]?.map Frame.links
  vars : ∀ j : Nat, s'.frames[j]?.map Frame.vars = s.frames[j]?.map Frame.vars
  found : ∀ j other, s'.found (·.functions.get? other) j =
    if j = i ∧ other = key then some function else s.found (·.functions.get? other) j

/-- Storing a variable binds it in one frame. -/
private theorem bindsVariable_store {s : Scopes V F} {i : FrameId} {f : Frame V F}
    (hf : s.frames[i]? = some f) (name : String) (value : V) :
    BindsVariable s i name value (s.store i name value) where
  shape := sameShape_store s i name value
  found := found_store hf name value

/-- A definition of a function keeps all that does not depend on functions. -/
private theorem redefineFunction_view (s : Scopes V F) {view : Frame V F → α}
    (hview : ∀ f functions, view { f with functions := functions } = view f) (name : String)
    (arity : Nat) (function : F) (j : Nat) :
    (s.redefineFunction name arity function).frames[j]?.map view = s.frames[j]?.map view := by
  rw [redefineFunction_frame]
  split
  · rw [Option.map_map]
    exact Option.map_congr fun f _ => hview f _
  · rfl

/-- Binding a function binds it in the current frame. -/
private theorem bindsFunction_redefineFunction {s : Scopes V F} {f : Frame V F}
    (hf : s.frames[s.current]? = some f) (name : String) (arity : Nat) (function : F) :
    BindsFunction s s.current (name, arity) function (s.redefineFunction name arity function) where
  current := rfl
  links := redefineFunction_view s (fun _ _ => rfl) name arity function
  vars := redefineFunction_view s (fun _ _ => rfl) name arity function
  found := by
    intro j other
    rw [found, redefineFunction_frame, found]
    by_cases hj : j = s.current
    · subst hj
      rw [if_pos rfl, hf, Option.map_some, Option.bind_some, Option.bind_some, Table.get?_insert]
      simp only [true_and]
    · rw [if_neg hj, if_neg fun h => hj h.1]

/-- Names mean what the nearest frame on the chain says, for reading and for writing. -/
structure Resolves (s : Scopes V F) (chain : List FrameId) : Prop where
  lookup : ∀ name v, s.lookup? name = some v ↔ ∃ i, Nearest s chain (·.vars.get? name) i v
  function : ∀ name arity function, s.function? name arity = some function ↔
    ∃ i, Nearest s chain (·.functions.get? (name, arity)) i function
  assign_none : ∀ name value, s.assign? name value = none ↔ s.lookup? name = none
  assign_some : ∀ name value s', s.assign? name value = some s' →
    ∃ i v, s.lookup? name = some v ∧ Nearest s chain (·.vars.get? name) i v ∧
      BindsVariable s i name value s'

/-- Definitions go to the current frame, and fail if it has the name already. -/
structure Defines (s : Scopes V F) : Prop where
  variable_error : ∀ name value, (∃ e, s.defineVariable name value = .error e) ↔
    ∃ v, s.found (·.vars.get? name) s.current = some v
  variable_kept : ∀ name value e, s.defineVariable name value = .error e →
    (Op.defineVariable name value).apply s = s
  variable_ok : ∀ name value s', s.defineVariable name value = .ok s' →
    BindsVariable s s.current name value s'
  function_error : ∀ name arity function, (∃ e, s.defineFunction name arity function = .error e) ↔
    ∃ g, s.found (·.functions.get? (name, arity)) s.current = some g
  function_kept : ∀ name arity function e, s.defineFunction name arity function = .error e →
    (Op.defineFunction name arity function).apply s = s
  function_ok : ∀ name arity function s', s.defineFunction name arity function = .ok s' →
    BindsFunction s s.current (name, arity) function s'
  redefine : ∀ name arity function,
    BindsFunction s s.current (name, arity) function (s.redefineFunction name arity function)

namespace Stacked

variable {s : Scopes V F}

/-- A search finds what the nearest frame of the chain has. -/
private theorem map_search_iff (h : Stacked s) {chain : List FrameId}
    (hchain : StaticChain s s.current chain) (get : Frame V F → Option α) (a : α) :
    (s.search get).map (·.2) = some a ↔ ∃ i, Nearest s chain get i a := by
  rw [Option.map_eq_some_iff]
  constructor
  · intro hfound
    obtain ⟨⟨i, b⟩, hsearch, rfl⟩ := hfound
    exact ⟨i, (h.search_iff hchain get i b).mp hsearch⟩
  · intro hfound
    obtain ⟨i, hnearest⟩ := hfound
    exact ⟨(i, a), (h.search_iff hchain get i a).mpr hnearest, rfl⟩

/-- Names are resolved along the static chain. -/
theorem resolves (h : Stacked s) {chain : List FrameId} (hchain : StaticChain s s.current chain) :
    Resolves s chain where
  lookup := fun _ v => h.map_search_iff hchain _ v
  function := fun _ _ function => h.map_search_iff hchain _ function
  assign_none := by
    intro name value
    rw [assign?_eq, lookup?, Option.map_eq_none_iff, Option.map_eq_none_iff]
  assign_some := by
    intro name value s' hassign
    rw [assign?_eq, Option.map_eq_some_iff] at hassign
    obtain ⟨⟨i, v⟩, hsearch, rfl⟩ := hassign
    -- The variable that is written is the one that a lookup finds.
    have hnearest := (h.search_iff hchain _ i v).mp hsearch
    obtain ⟨f, hf, -⟩ := Option.bind_eq_some_iff.mp hnearest.found
    exact ⟨i, v, by rw [lookup?, hsearch]; rfl, hnearest, bindsVariable_store hf name value⟩

/-- Names are defined in the current frame. -/
theorem defines (h : Stacked s) : Defines s := by
  obtain ⟨f, hf⟩ : ∃ f, s.frames[s.current]? = some f := ⟨_, Array.getElem?_eq_getElem h.current_lt⟩
  constructor
  case variable_error =>
    -- A name that is taken is reported, and nothing is changed.
    intro name value
    rw [defineVariable_eq, ← Option.isSome_iff_exists]
    split <;> simp_all
  case variable_kept =>
    intro name value e herror
    rw [Op.apply, herror]
    rfl
  case variable_ok =>
    intro name value s' hok
    obtain ⟨-, rfl⟩ := defineVariable_eq_ok_iff.mp hok
    exact bindsVariable_store hf name value
  case function_error =>
    intro name arity function
    rw [defineFunction, definesHere, ← Option.isSome_iff_exists, found]
    split <;> simp_all
  case function_kept =>
    intro name arity function e herror
    rw [Op.apply, herror]
    rfl
  case function_ok =>
    intro name arity function s' hok
    obtain ⟨-, rfl⟩ := defineFunction_eq_ok_iff.mp hok
    -- Functions are bound in the current frame as well.
    exact bindsFunction_redefineFunction hf name arity function
  case redefine => exact bindsFunction_redefineFunction hf

end Stacked

/-! ## Entering and leaving a frame -/

/-- The operations that enter a frame. -/
def Op.enters : Op V F → Bool
  | .push | .pushChildOf _ => true
  | _ => false

/-- A frame is entered with `enter`, and after `inner` it is about to be left. -/
structure Bracket (s : Scopes V F) (enter : Op V F) (inner : List (Op V F)) : Prop where
  enters : enter.enters = true
  permitted : s.permitted (enter :: inner) = true
  above : staysAbove s.depth (enter.apply s) inner = true
  depth_eq : (s.run (enter :: inner)).depth = s.depth + 1

/-- `s'` is `s` but for values of variables that `inner`, from the frame entered on, has written. -/
structure Restored (s : Scopes V F) (enter : Op V F) (inner : List (Op V F)) (s' : Scopes V F) :
    Prop where
  current : s'.current = s.current
  outlines : s'.frames.map Frame.outline = s.frames.map Frame.outline
  values : ∀ i name, s'.found (·.vars.get? name) i = s.found (·.vars.get? name) i ∨
    ∃ value, s'.found (·.vars.get? name) i = some value ∧
      Written s.depth (enter.apply s) inner i name value

/-- What is entered is one more frame, on top of the others. -/
private theorem Bracket.frame_lt {s : Scopes V F} {enter : Op V F} {inner : List (Op V F)}
    (h : Bracket s enter inner) {i : Nat} (hi : i < s.depth) :
    (enter.apply s).frames[i]? = s.frames[i]? := by
  have henters := h.enters
  cases enter with
  | push => exact pushChildOf_frame_lt s s.current hi
  | pushChildOf parent => exact pushChildOf_frame_lt s parent hi
  | pop | defineVariable | defineFunction | redefineFunction | assign => exact nomatch henters

/-- Leaving a frame undoes entering it and what was done in it, up to values written outside. -/
theorem Stacked.restored {s : Scopes V F} (h : Stacked s) {enter : Op V F} {inner : List (Op V F)}
    (hbracket : Bracket s enter inner) :
    Restored s enter inner (s.run (enter :: inner ++ [.pop])) := by
  have hpermitted := hbracket.permitted
  have hinside : Stacked (s.run (enter :: inner)) := h.run hpermitted
  simp only [Scopes.permitted, Bool.and_eq_true] at hpermitted
  have hentered : Stacked (enter.apply s) := h.of_effect (h.effect hpermitted.1)
  have hdepth := hbracket.depth_eq
  have hpositive := h.depth_eq
  -- What is left are the frames that were there before, as they were inside.
  have htop : (s.run (enter :: inner)).current = s.depth :=
    Nat.succ.inj (hinside.depth_eq.symm.trans hdepth)
  have hpop : s.run (enter :: inner ++ [.pop]) = (s.run (enter :: inner)).pop := by
    rw [run_append, run_cons, run_nil, Op.apply]
  have hframe : ∀ i, (s.run (enter :: inner ++ [.pop])).frames[i]? =
      if i < s.depth then ((enter.apply s).run inner).frames[i]? else none := by
    intro i
    rw [hpop, hinside.pop_frame (by omega), htop, run_cons]
  have hnone : ∀ i, ¬ i < s.depth → s.frames[i]? = none := fun i hi =>
    Array.getElem?_eq_none (Nat.le_of_not_lt hi)
  constructor
  · rw [hpop, hinside.pop_eq, if_neg (by omega), htop, hpositive]
    rfl
  · apply Array.ext_getElem?
    intro i
    rw [Array.getElem?_map, Array.getElem?_map, hframe]
    split
    · rename_i hi
      rw [hentered.outline_run hpermitted.2 hbracket.above hi, hbracket.frame_lt hi]
    · rename_i hi
      rw [hnone i hi]
  · intro i name
    rw [found, hframe, found]
    split
    · rename_i hi
      have hfound := hentered.found_run hpermitted.2 hbracket.above hi name
      rwa [found, found, hbracket.frame_lt hi] at hfound
    · rename_i hi
      rw [hnone i hi]
      exact .inl rfl

/-! ## Any operations -/

/-- Whatever is done, the frames are a stack.  Every name is looked up along the static chain of the
    current frame, for reading and for writing, every definition goes to the current frame, and
    after a frame is left only values are different, which have been written from inside. -/
theorem operations_keep_stack (ops : List (Op V F)) (hops : new.permitted ops = true) :
    Stacked (new.run ops) ∧
    (∃ chain, StaticChain (new.run ops) (new.run ops).current chain ∧
      Resolves (new.run ops) chain) ∧
    Defines (new.run ops) ∧
    ∀ enter inner, Bracket (new.run ops) enter inner →
      Restored (new.run ops) enter inner ((new.run ops).run (enter :: inner ++ [.pop])) := by
  have hstacked : Stacked (new.run ops) := Stacked.new.run hops
  obtain ⟨chain, hchain⟩ := hstacked.exists_chain hstacked.current_lt
  exact ⟨hstacked, ⟨chain, hchain, hstacked.resolves hchain⟩, hstacked.defines,
    fun enter inner hbracket => hstacked.restored hbracket⟩

/-- Enter a block, with one variable in the global frame and one in the block. -/
def inBlock : List (Op Nat String) := [.defineVariable "x" 1, .push, .defineVariable "y" 2]

/-- Write the global variable, hide it for a while, and try to write one of the caller. -/
def inCall : List (Op Nat String) :=
  [.assign "x" 7, .push, .defineVariable "x" 9, .assign "x" 10, .pop, .assign "y" 3]

/-- A call from a block writes the global variable and leaves the block as it was. -/
theorem call_from_block :
    new.permitted inBlock = true ∧ Bracket (new.run inBlock) (.pushChildOf global) inCall ∧
    Restored (new.run inBlock) (.pushChildOf global) inCall
      ((new.run inBlock).run (.pushChildOf global :: inCall ++ [.pop])) ∧
    ((new.run inBlock).run (.pushChildOf global :: inCall ++ [.pop])).lookup? "x" = some 7 ∧
    ((new.run inBlock).run (.pushChildOf global :: inCall ++ [.pop])).lookup? "y" = some 2 := by
  have hpermitted : new.permitted inBlock = true := by decide
  have hbracket : Bracket (new.run inBlock) (.pushChildOf global) inCall :=
    ⟨rfl, by decide, by decide, by decide⟩
  exact ⟨hpermitted, hbracket,
    (operations_keep_stack inBlock hpermitted).2.2.2 _ _ hbracket, by decide, by decide⟩

end Scopes
end LetLang
